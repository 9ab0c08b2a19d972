import Purse.Proofs.Registry.Holding

/-!
# Numbers of accounts

A new account has the number after the greatest one in use. A Bitcoin engine does not count the
account of imported keys among these. So its next number is new unless the accounts are
`Crowded`: if the greatest of the other numbers is the one before that of the imported keys, the
next number is theirs (`nextNumber_mem_iff`). In a sequence of errands the numbers of the accounts
stay apart exactly if no account is made while they are crowded. An account is found by the number
it was given exactly if they were not crowded when it was made, whatever comes after
(`numbers_stay_apart`).
-/

namespace Purse

namespace InMemoryEngine

variable {e : InMemoryEngine}

def numbers (e : InMemoryEngine) : List UInt32 :=
  e.accounts.map (·.number)

/-- The account of imported keys is there, and the number before its own is the greatest of the
others. -/
def Crowded (e : InMemoryEngine) : Prop :=
  e.asset = .btc ∧ importedAccount ∈ e.numbers ∧
    e.numbersInUse.max? = some (importedAccount - 1)

/-- After every number there is another one. -/
def Roomy (e : InMemoryEngine) : Prop :=
  ∀ number ∈ e.numbers, number.toNat < UInt32.size - 1

instance (e : InMemoryEngine) : Decidable e.Crowded :=
  inferInstanceAs (Decidable (_ ∧ _ ∧ _))

instance (e : InMemoryEngine) : Decidable e.Roomy :=
  List.decidableBAll (fun number : UInt32 => number.toNat < UInt32.size - 1) e.numbers

/-! ## The next number -/

/-- The greatest number of a list is in it, and no other is greater. -/
theorem greatest_of_max? {l : List UInt32} {greatest : UInt32} (h : l.max? = some greatest) :
    greatest ∈ l ∧ ∀ number ∈ l, number ≤ greatest := by
  have hmax : ∀ a b : UInt32, max a b = if a ≤ b then b else a := fun _ _ => rfl
  have hlawful : Std.LawfulOrderMax UInt32 := {
    max_eq_or := fun a b => by
      rw [hmax]
      split <;> simp
    max_le_iff := fun a b c => by
      rw [hmax]
      split <;> simp only [UInt32.le_iff_toNat_le] at * <;> omega }
  exact List.max?_eq_some_iff.mp h

theorem mem_numbersInUse {number : UInt32} (h : number ∈ e.numbers) :
    number ∈ e.numbersInUse ∨ (e.asset = .btc ∧ number = importedAccount) := by
  unfold numbersInUse
  cases e.asset with
  | dcr => exact .inl h
  | btc =>
    by_cases himported : number = importedAccount
    · exact .inr ⟨rfl, himported⟩
    · exact .inl (List.mem_filter.mpr ⟨h, by simpa using himported⟩)

theorem numbersInUse_subset : e.numbersInUse ⊆ e.numbers := by
  unfold numbersInUse
  cases e.asset with
  | dcr => exact List.Subset.refl _
  | btc => exact List.filter_subset_self _

theorem toNat_succ (h : e.Roomy) {number : UInt32} (hmem : number ∈ e.numbers) :
    (number + 1).toNat = number.toNat + 1 := by
  have hroom := h number hmem
  unfold UInt32.size at hroom
  rw [UInt32.toNat_add, UInt32.toNat_one]
  exact Nat.mod_eq_of_lt (by omega)

theorem nextNumber_btc (h : e.asset = .btc) :
    e.nextNumber = (e.numbersInUse.max?.map (· + 1)).getD 0 := by
  unfold nextNumber
  rw [h]

theorem nextNumber_dcr (h : e.asset = .dcr) :
    e.nextNumber = (e.numbersInUse.map (· + 1)).max?.getD 0 := by
  unfold nextNumber
  rw [h]

/-- The next number is greater than all that are in use: it is the one after the greatest of
them, or the greatest of those that come after one of them. -/
theorem lt_nextNumber (h : e.Roomy) {number : UInt32} (hmem : number ∈ e.numbersInUse) :
    number < e.nextNumber := by
  cases hasset : e.asset with
  | btc =>
    cases hmax : e.numbersInUse.max? with
    | none =>
      rw [List.max?_eq_none_iff.mp hmax] at hmem
      cases hmem
    | some greatest =>
      obtain ⟨hgreatest, hall⟩ := greatest_of_max? hmax
      have hle := UInt32.le_iff_toNat_le.mp (hall number hmem)
      have hsucc := toNat_succ h (numbersInUse_subset hgreatest)
      rw [nextNumber_btc hasset, hmax]
      show number < greatest + 1
      rw [UInt32.lt_iff_toNat_lt]
      omega
  | dcr =>
    have hnext : number + 1 ∈ e.numbersInUse.map (· + 1) := List.mem_map_of_mem hmem
    cases hmax : (e.numbersInUse.map (· + 1)).max? with
    | none =>
      rw [List.max?_eq_none_iff.mp hmax] at hnext
      cases hnext
    | some greatest =>
      obtain ⟨-, hall⟩ := greatest_of_max? hmax
      have hle := UInt32.le_iff_toNat_le.mp (hall _ hnext)
      have hsucc := toNat_succ h (numbersInUse_subset hmem)
      rw [nextNumber_dcr hasset, hmax]
      show number < greatest
      rw [UInt32.lt_iff_toNat_lt]
      omega

/-- The next number is that of an account only if the accounts are crowded. -/
theorem nextNumber_mem_iff (h : e.Roomy) : e.nextNumber ∈ e.numbers ↔ e.Crowded := by
  constructor
  · intro hmem
    rcases mem_numbersInUse hmem with huse | ⟨hasset, himported⟩
    · exact absurd (lt_nextNumber h huse) (UInt32.lt_irrefl _)
    · refine ⟨hasset, himported ▸ hmem, ?_⟩
      rw [nextNumber_btc hasset] at himported
      cases hmax : e.numbersInUse.max? with
      | none =>
        rw [hmax] at himported
        cases himported
      | some greatest =>
        rw [hmax] at himported
        rw [← himported]
        exact congrArg some (UInt32.add_sub_cancel _ _).symm
  · rintro ⟨hasset, himported, hmax⟩
    rw [nextNumber_btc hasset, hmax]
    exact himported

/-- An account that is made has the next number and no funds. A Bitcoin engine makes none under a
name that is taken. -/
theorem newAccount_ok {name : String} {number : UInt32}
    (h : (e.newAccount name).1 = .ok number) :
    number = e.nextNumber ∧ (e.newAccount name).2 = e.addAccount name ∧
      (e.asset = .btc → ∀ a ∈ e.accounts, a.name ≠ name) := by
  unfold newAccount at h ⊢
  by_cases hlocked : e.locked = true
  · rw [if_pos hlocked] at h
    cases h
  · rw [if_neg hlocked] at h ⊢
    by_cases htaken : e.asset = .btc ∧ (e.named? name).isSome
    · rw [if_pos htaken] at h
      cases h
    · rw [if_neg htaken] at h ⊢
      cases h
      refine ⟨rfl, rfl, fun hasset a ha hname => htaken ⟨hasset, ?_⟩⟩
      exact List.find?_isSome.mpr ⟨a, ha, by simpa using hname⟩

end InMemoryEngine

variable {ε : Type} [Engine ε] {inner : ε → InMemoryEngine}

/-! ## Accounts in dealings -/

namespace Dealing

/-- An account is asked for in this dealing, and made with this number. -/
def Makes (d : Dealing ε) (name : String) (number : UInt32) : Prop :=
  ∃ scope e, d = .asked e (.nextAccount scope name) ∧
    (Engine.ask (.nextAccount scope name) e).1 = .ok number

/-- To unlock or to lock the wallet, or to ask for an account. -/
def OfErrand : Dealing ε → Prop
  | asked _ (.unlock _) | asked _ (.nextAccount _ _) | locked _ => True
  | _ => False

/-- What becomes of the accounts if one is made. -/
theorem Makes.left (hinner : HeldInMemory inner) {d : Dealing ε} {name : String} {number : UInt32}
    (h : d.Makes name number) :
    number = (inner d.found).nextNumber ∧
      (∃ a : StoredAccount, (inner d.left).accounts = (inner d.found).accounts ++ [a] ∧
        a.number = number ∧ a.name = name ∧ a.balance.toBalance = .ok ⟨⟨0⟩, ⟨0⟩, ⟨0⟩⟩) ∧
      ((inner d.found).asset = .btc → ∀ a ∈ (inner d.found).accounts, a.name ≠ name) := by
  obtain ⟨scope, e, rfl, hreply⟩ := h
  rcases hinner.ask (.nextAccount scope name) e with ⟨⟨f, hrefused⟩, -⟩ | hasked
  · cases hreply.symm.trans hrefused
  · obtain ⟨counts, hcounted⟩ := InMemoryEngine.countCall_eq (.nextAccount scope name) (inner e)
    have hmade : Engine.ask (.nextAccount scope name) (inner e) =
        ({ inner e with counts } : InMemoryEngine).newAccount name := by
      rw [← hcounted]
      rfl
    rw [hmade] at hasked
    obtain ⟨hfirst, hleft⟩ := Prod.ext_iff.mp hasked
    obtain ⟨hnumber, hadded, hnames⟩ := InMemoryEngine.newAccount_ok (hfirst.symm.trans hreply)
    refine ⟨hnumber, ⟨⟨number, name, InMemoryEngine.zeroBalance (inner e).asset, []⟩,
      ?_, rfl, rfl, ?_⟩, hnames⟩
    · have hleft' : inner (Engine.ask (.nextAccount scope name) e).2 =
          ({ inner e with counts } : InMemoryEngine).addAccount name := hleft.trans hadded
      show (inner (Engine.ask (.nextAccount scope name) e).2).accounts = _
      rw [hleft', hnumber]
      rfl
    · cases (inner e).asset <;> rfl

/-- If none is made they stay as they are. -/
theorem accounts_left (hinner : HeldInMemory inner) {d : Dealing ε} (h : d.OfErrand)
    (hnone : ∀ name number, ¬d.Makes name number) :
    (inner d.left).accounts = (inner d.found).accounts := by
  cases d with
  | locked e =>
    show (inner (Engine.lock e)).accounts = (inner e).accounts
    rw [hinner.lock]
    rfl
  | asked e c =>
    cases c with
    | unlock passphrase => exact hinner.accounts_ask_unlock passphrase e
    | nextAccount scope name =>
      cases hreply : (Engine.ask (.nextAccount scope name) e).1 with
      | ok number => exact absurd ⟨scope, e, rfl, hreply⟩ (hnone name number)
      | error f =>
        obtain ⟨counts, hleft⟩ := hinner.ask_refused hreply
        show (inner (Engine.ask (.nextAccount scope name) e).2).accounts = _
        rw [hleft]
        rfl
    | _ => exact h.elim

end Dealing

/-- A list of parts goes on from each of them. -/
theorem Leads.after {α σ : Type} {found left : α → σ} {s s' : σ} {l : List α} {a : α}
    (h : Leads found left s l s') (ha : a ∈ l) :
    ∃ l', Leads found left (left a) l' s' ∧ (a :: l') ⊆ l := by
  induction h with
  | nil => cases ha
  | @cons l s b hrest ih =>
    rcases List.mem_cons.mp ha with rfl | ha
    · exact ⟨l, hrest, List.Subset.refl _⟩
    · obtain ⟨l', hleads, hsubset⟩ := ih ha
      exact ⟨l', hleads, List.subset_cons_of_subset _ hsubset⟩

section Deals

variable {e e' : ε} {ds : List (Dealing ε)}

/-- Errands only ever add accounts, at the end. -/
theorem accounts_grow (hinner : HeldInMemory inner) (h : Engine.Deals e ds e')
    (hds : ∀ d ∈ ds, d.OfErrand) : (inner e).accounts <+: (inner e').accounts := by
  induction h with
  | nil => exact List.prefix_refl _
  | cons d _ ih =>
    have hrest := ih fun d' hd' => hds d' (List.mem_cons_of_mem _ hd')
    refine List.IsPrefix.trans ?_ hrest
    by_cases hmade : ∃ name number, d.Makes name number
    · obtain ⟨name, number, hmade⟩ := hmade
      obtain ⟨-, ⟨a, ha, -⟩, -⟩ := hmade.left hinner
      rw [ha]
      exact List.prefix_append _ _
    · have hsame := d.accounts_left hinner (hds d List.mem_cons_self) fun name number hd =>
        hmade ⟨name, number, hd⟩
      exact hsame ▸ List.prefix_refl _

/-- What there is at the beginning of a dealing is still there in the end. -/
theorem found_grows (hinner : HeldInMemory inner) (h : Engine.Deals e ds e')
    (hds : ∀ d ∈ ds, d.OfErrand) {d : Dealing ε} (hd : d ∈ ds) :
    (inner d.found).accounts <+: (inner e').accounts := by
  obtain ⟨ds', hrest, hsubset⟩ := h.after hd
  exact accounts_grow hinner (.cons d hrest) fun d' hd' => hds d' (hsubset hd')

/-- A number that is new when an account is made is not that of any account there is. -/
theorem made_mem_iff (hinner : HeldInMemory inner) {d : Dealing ε} {name : String}
    {number : UInt32} (h : d.Makes name number) (hroomy : (inner d.found).Roomy) :
    number ∈ (inner d.found).numbers ↔ (inner d.found).Crowded := by
  rw [(h.left hinner).1]
  exact InMemoryEngine.nextNumber_mem_iff hroomy

/-- The numbers stay apart unless an account is made while they are crowded. -/
theorem numbers_nodup_iff (hinner : HeldInMemory inner) (h : Engine.Deals e ds e')
    (hds : ∀ d ∈ ds, d.OfErrand) (hroomy : ∀ d ∈ ds, (inner d.found).Roomy)
    (hnodup : (inner e).numbers.Nodup) :
    (inner e').numbers.Nodup ↔
      ∀ d ∈ ds, ∀ name number, d.Makes name number → ¬(inner d.found).Crowded := by
  induction h with
  | nil => exact ⟨fun _ _ hd => absurd hd List.not_mem_nil, fun _ => hnodup⟩
  | @cons ds e' d hrest ih =>
    have hds' : ∀ d' ∈ ds, d'.OfErrand := fun d' hd' => hds d' (List.mem_cons_of_mem _ hd')
    have hroomy' : ∀ d' ∈ ds, (inner d'.found).Roomy := fun d' hd' =>
      hroomy d' (List.mem_cons_of_mem _ hd')
    rw [List.forall_mem_cons]
    by_cases hmade : ∃ name number, d.Makes name number
    · obtain ⟨name, number, hmade⟩ := hmade
      obtain ⟨-, ⟨a, ha, hnumber, -⟩, -⟩ := hmade.left hinner
      have hleft : (inner d.left).numbers = (inner d.found).numbers ++ [number] := by
        unfold InMemoryEngine.numbers
        rw [ha, List.map_append, List.map_singleton, hnumber]
      have hiff := made_mem_iff hinner hmade (hroomy d List.mem_cons_self)
      by_cases hcrowded : (inner d.found).Crowded
      · -- the number is there twice from now on
        refine iff_of_false (fun hall => ?_) fun hall => hall.1 name number hmade hcrowded
        have hgrown : (inner d.left).numbers <+: (inner e').numbers :=
          (accounts_grow hinner hrest hds').map _
        have hnumbers := hgrown.sublist.nodup hall
        rw [hleft, List.nodup_append] at hnumbers
        exact hnumbers.2.2 number (hiff.mpr hcrowded) number (List.mem_singleton_self _) rfl
      · rw [and_iff_right fun _ _ _ => hcrowded]
        apply ih hds' hroomy'
        rw [hleft, List.nodup_append]
        refine ⟨hnodup, List.pairwise_singleton _ _, fun n hn n' hn' heq => hcrowded (hiff.mp ?_)⟩
        rwa [← List.mem_singleton.mp hn', ← heq]
    · have hnone : ∀ name number, ¬d.Makes name number := fun name number hd =>
        hmade ⟨name, number, hd⟩
      rw [and_iff_right fun name number hd => absurd hd (hnone name number)]
      apply ih hds' hroomy'
      rwa [InMemoryEngine.numbers, d.accounts_left hinner (hds d List.mem_cons_self) hnone]

/-- The first account with a number that was given is the one that was made, if it was new. -/
theorem find?_made (hinner : HeldInMemory inner) (h : Engine.Deals e ds e')
    (hds : ∀ d ∈ ds, d.OfErrand) {d : Dealing ε} (hd : d ∈ ds) {name : String} {number : UInt32}
    (hmade : d.Makes name number) (hroomy : (inner d.found).Roomy) :
    ∃ a, (inner e').accounts.find? (·.number = number) = some a ∧
      (a.name = name ∧ a.balance.toBalance = .ok ⟨⟨0⟩, ⟨0⟩, ⟨0⟩⟩ ↔ ¬(inner d.found).Crowded) := by
  obtain ⟨ds', hrest, hsubset⟩ := h.after hd
  obtain ⟨-, ⟨a, ha, hnumber, hname, hbalance⟩, hnames⟩ := hmade.left hinner
  obtain ⟨more, hmore⟩ := accounts_grow hinner hrest fun d' hd' =>
    hds d' (hsubset (List.mem_cons_of_mem _ hd'))
  have hiff := made_mem_iff hinner hmade hroomy
  rw [← hmore, ha, List.append_assoc, List.find?_append]
  by_cases hcrowded : (inner d.found).Crowded
  · -- the account that was there before comes first, and has another name
    obtain ⟨x, hx, hxnumber⟩ := List.mem_map.mp (hiff.mpr hcrowded)
    have hthere : ((inner d.found).accounts.find? (·.number = number)).isSome :=
      List.find?_isSome.mpr ⟨x, hx, decide_eq_true hxnumber⟩
    obtain ⟨y, hy⟩ := Option.isSome_iff_exists.mp hthere
    refine ⟨y, by rw [hy, Option.some_or], iff_of_false ?_ fun hnot => hnot hcrowded⟩
    rintro ⟨hyname, -⟩
    exact hnames hcrowded.1 y (List.mem_of_find?_eq_some hy) hyname
  · have hnone : (inner d.found).accounts.find? (·.number = number) = none := by
      rw [List.find?_eq_none]
      intro x hx hxnumber
      exact hcrowded (hiff.mp (List.mem_map.mpr ⟨x, hx, by simpa using hxnumber⟩))
    refine ⟨a, ?_, iff_of_true ⟨hname, hbalance⟩ hcrowded⟩
    rw [hnone, Option.none_or]
    exact List.find?_cons_of_pos (decide_eq_true hnumber)

end Deals

/-! ## Accounts made on errands -/

theorem Making.ofErrand {scope : Option KeyScope} {names : List String} {e e' : ε}
    {ds : List (Dealing ε)} {o : Outcome (List UInt32)} (h : Making scope names e ds o e') :
    ∀ d ∈ ds, d.OfErrand := by
  induction h with
  | done | barred => exact fun _ hd => absurd hd List.not_mem_nil
  | refused => exact List.forall_mem_singleton.mpr trivial
  | made _ _ _ ih => exact List.forall_mem_cons.mpr ⟨trivial, ih⟩

/-- The numbers that are answered are those that were given, name by name. -/
theorem Making.makes {scope : Option KeyScope} {names : List String} {e e' : ε}
    {ds : List (Dealing ε)} {o : Outcome (List UInt32)} (h : Making scope names e ds o e')
    {numbers : List UInt32} (ho : o = .ok numbers) :
    List.Forall₂ (fun name number => ∃ d ∈ ds, d.Makes name number) names numbers := by
  induction h generalizing numbers with
  | done =>
    cases ho
    exact .nil
  | barred | refused => cases ho
  | @made e e' name names number ds o _ hreply _ ih =>
    cases o with
    | error f => cases ho
    | ok rest =>
      cases ho
      refine .cons ⟨_, List.mem_cons_self, scope, e, rfl, hreply⟩ ((ih rfl).imp fun _ _ hd => ?_)
      obtain ⟨d, hd, hmakes⟩ := hd
      exact ⟨d, List.mem_cons_of_mem _ hd, hmakes⟩

namespace Registry

namespace Errand

/-- The names for which an errand asks for accounts. -/
def names : Errand → List String
  | unlock _ | lock => []
  | next name | create name _ => [name]
  | createAll names _ => names

variable {x : Errand} {scope : Option KeyScope} {e e' : ε} {ds : List (Dealing ε)}
  {o : Outcome (List UInt32)}

theorem Goes.ofErrand (h : x.Goes scope e ds o e') : ∀ d ∈ ds, d.OfErrand := by
  cases h with
  | unlocks | locks | refused => exact List.forall_mem_singleton.mpr trivial
  | asks hmaking => exact hmaking.ofErrand
  | creates _ _ hmaking =>
    intro d hd
    rcases List.mem_cons.mp hd with rfl | hd
    · trivial
    · rcases List.mem_append.mp hd with hd | hd
      · exact hmaking.ofErrand d hd
      · obtain rfl := List.mem_singleton.mp hd
        trivial

/-- An errand that succeeds has had an account made under each of its names, and answers with
their numbers. -/
theorem Goes.makes (h : x.Goes scope e ds o e') {numbers : List UInt32} (ho : o = .ok numbers) :
    List.Forall₂ (fun name number => ∃ d ∈ ds, d.Makes name number) x.names numbers := by
  cases h with
  | unlocks _ passphrase =>
    cases hreply : (Engine.ask (.unlock passphrase) e).1 with
    | error f =>
      rw [hreply] at ho
      cases ho
    | ok _ =>
      rw [hreply] at ho
      cases ho
      exact .nil
  | locks =>
    cases ho
    exact .nil
  | asks hmaking => exact hmaking.makes ho
  | refused => cases ho
  | @creates _ _ _ passphrase names ds _ hx _ hmaking =>
    have hnames : x.names = names := by
      cases x <;> cases hx <;> rfl
    rw [hnames]
    refine (hmaking.makes ho).imp fun name number hd => ?_
    obtain ⟨d, hd, hmakes⟩ := hd
    exact ⟨d, List.mem_cons_of_mem _ (List.mem_append_left _ hd), hmakes⟩

end Errand

/-! ## Accounts found by their numbers -/

variable {s s' : Registry ε} {w : WalletId}

/-- After a refresh the first account that has a number is found by it. -/
theorem lookup_of_refresh (hinner : HeldInMemory inner) {n ticket : Nat} {p : Accounts}
    {stored : List StoredAccount} (hholds : Holds inner w n stored s)
    (hexec : (refresh ticket w).exec s = (.ok p, s')) {number : UInt32} {x : StoredAccount}
    (hx : stored.find? (·.number = number) = some x) :
    ∃ account, ((lookup w number).exec s').1 = .ok account ∧ account.name = x.name ∧
      x.balance.toBalance = .ok account.balance := by
  obtain ⟨-, hpriced⟩ := (refresh_secures_priced hinner ticket).run hholds .answer
  rw [show (refresh ticket w).run.run s = _ from hexec] at hpriced
  rcases find?_of_bears (fun _ _ h => h.info) (hpriced p rfl) number with
    ⟨hnone, -⟩ | ⟨x', account, hsome, hshown, hinfo, y, hy, hbalance⟩
  · cases hx.symm.trans hnone
  · cases hx.symm.trans hsome
    have hnumber : x.number = number := by simpa using List.find?_some hx
    rw [hnumber] at hy
    cases hx.symm.trans hy
    refine ⟨account, ?_, hinfo.name, hbalance⟩
    have hget : p.get? number = some account := hshown
    unfold lookup
    rw [exec_bind_ok (accounts_exec_some (refresh_exec_ok hexec)), hget]
    rfl

/-- The balance of an account that nothing has been paid to. -/
def unfunded : Balance :=
  ⟨.zero, .zero, .zero⟩

theorem ofErrand_of_goes {scope : Option KeyScope} {visits : List (Visit ε)}
    (h : ∀ v ∈ visits, v.Goes scope) :
    ∀ d ∈ visits.flatMap (·.dealings), d.OfErrand := by
  intro d hd
  obtain ⟨v, hv, hd⟩ := List.mem_flatMap.mp hd
  exact Errand.Goes.ofErrand (h v hv) d hd

/-- What a number is worth that was given in a dealing: whether it was new, and whether the new
account is found by it when everything has been done. Both are so unless the accounts were
crowded. -/
structure Numbered (inner : ε → InMemoryEngine) (w : WalletId) (s : Registry ε) (d : Dealing ε)
    (name : String) (number : UInt32) : Prop where
  fresh : number ∉ (inner d.found).numbers ↔ ¬(inner d.found).Crowded
  found : ∀ ticket p s', (refresh ticket w).exec s = (.ok p, s') →
    ((∃ account, ((lookup w number).exec s').1 = .ok account ∧ account.name = name ∧
      account.balance = unfunded) ↔ ¬(inner d.found).Crowded)

/-- Whatever errands are run on a wallet, one after another: every success answers with the
numbers of accounts that were made. If the numbers differ at first and never run out, they go on
to differ exactly if no account is made while the accounts are crowded, and each new account has
a new number and is found by it exactly if they are not crowded when it is made. -/
theorem numbers_stay_apart (hinner : HeldInMemory inner) (hs : s.Sound) {r : Registration}
    (hr : s.registration? w = some r) (errands : List Errand) :
    ∃ e visits e', s.engines[r.access.engine]? = some e ∧
      visits.map (·.errand) = errands ∧ Leads Visit.found Visit.left e visits e' ∧
      (∀ v ∈ visits, v.Goes r.access.scope) ∧
      Engine.Deals e (visits.flatMap (·.dealings)) e' ∧
      (inTurn w errands).exec s =
        (.ok (visits.map (·.outcome)), s.withEngine r.access.engine e') ∧
      (∀ v ∈ visits, ∀ numbers, v.outcome = .ok numbers → List.Forall₂
        (fun name number => ∃ d ∈ v.dealings, d.Makes name number) v.errand.names numbers) ∧
      ((inner e).numbers.Nodup →
        (∀ d ∈ visits.flatMap (·.dealings), (inner d.found).Roomy) →
        ((inner e').numbers.Nodup ↔ ∀ d ∈ visits.flatMap (·.dealings), ∀ name number,
          d.Makes name number → ¬(inner d.found).Crowded) ∧
        ∀ d ∈ visits.flatMap (·.dealings), ∀ name number, d.Makes name number →
          Numbered inner w (s.withEngine r.access.engine e') d name number) := by
  obtain ⟨e, he⟩ := hs.engine hr
  obtain ⟨visits, e', herrands, hleads, hgoes, hexec⟩ := inTurn_exec hr he errands
  have hdeals : Engine.Deals e (visits.flatMap (·.dealings)) e' :=
    hleads.flatMap fun v hv => (hgoes v hv).disciplined.deals
  have hds := ofErrand_of_goes hgoes
  refine ⟨e, visits, e', he, herrands, hleads, hgoes, hdeals, hexec, fun v hv numbers ho => ?_,
    fun hnodup hroomy => ⟨numbers_nodup_iff hinner hdeals hds hroomy hnodup, ?_⟩⟩
  · exact Errand.Goes.makes (hgoes v hv) ho
  · intro d hd name number hmade
    refine ⟨not_congr (made_mem_iff hinner hmade (hroomy d hd)), fun ticket p s' hrefresh => ?_⟩
    obtain ⟨a, ha, hiff⟩ := find?_made hinner hdeals hds hd hmade (hroomy d hd)
    have hholds : Holds inner w r.access.engine (inner e').accounts
        (s.withEngine r.access.engine e') := by
      refine ⟨fun r' hr' => ?_, fun e'' he'' => ?_⟩
      · cases hr.symm.trans hr'
        rfl
      · cases (getElem?_withEngine he e').symm.trans he''
        rfl
    obtain ⟨account, hlookup, hname, hbalance⟩ := lookup_of_refresh hinner hholds hrefresh ha
    rw [← hiff, hlookup]
    constructor
    · rintro ⟨_, heq, hname', hbalance'⟩
      cases heq
      rw [← hname, hname', hbalance, hbalance']
      exact ⟨rfl, rfl⟩
    · rintro ⟨hname', hbalance'⟩
      exact ⟨account, rfl, hname.trans hname', Except.ok.inj (hbalance.symm.trans hbalance')⟩

namespace Sample

/-- A Bitcoin wallet with a number left before that of the imported keys. -/
def late : Registry InMemoryEngine where
  config := {}
  engines := [{
    asset := .btc
    accounts := [
      { number := 2147483645, name := "late", balance := .units 500 500 0 },
      { number := 2147483647, name := "imported", balance := .units 7 7 0 }]
    blockHash := default
    blockHeight := 5 }]
  registrations := [{ access := ⟨0, .btc, .mainnet⟩ }]
  wallets := [(7, 0)]

/-- A Bitcoin engine whose last number is the one before that of the imported keys. -/
def crowdedEngine : InMemoryEngine where
  asset := .btc
  accounts := [
    { number := 2147483646, name := "last", balance := .units 500 500 0 },
    { number := 2147483647, name := "imported", balance := .units 7 7 0 }]
  blockHash := default
  blockHeight := 5

/-- What becomes of its wallet when an account is made and the wallet is refreshed. -/
def crowdedOut : Registry InMemoryEngine :=
  let loaded := ((load 7 crowdedEngine).exec { config := {} }).2
  let made := ((createAccount 7 "new" "passphrase").exec loaded).2
  ((refresh 0 7).exec made).2

/-- Two more accounts are made. -/
def twoMore : List Errand :=
  [.create "a" "passphrase", .create "b" "passphrase"]

end Sample

open Sample

theorem sound_late : late.Sound :=
  sound_of_nodup (by decide) (by decide) (by decide)

/-- The first account has the number that is left, and the second one that of the imported
keys. -/
theorem numbers_stay_apart_late :
    ∃ (e : InMemoryEngine) (visits : List (Visit InMemoryEngine)) (e' : InMemoryEngine),
      late.engines[0]? = some e ∧ Engine.Deals e (visits.flatMap (·.dealings)) e' ∧
      visits.map (·.outcome) = [.ok [2147483646], .ok [2147483647]] ∧
      e.numbers.Nodup ∧ (∀ d ∈ visits.flatMap (·.dealings), d.found.Roomy) ∧
      ¬(∀ d ∈ visits.flatMap (·.dealings), ∀ name number, d.Makes name number →
        ¬d.found.Crowded) ∧
      ∀ d ∈ visits.flatMap (·.dealings), ∀ name number, d.Makes name number →
        Numbered id 7 (late.withEngine 0 e') d name number := by
  obtain ⟨e, visits, e', he, -, -, hgoes, hdeals, hexec, -, hall⟩ :=
    numbers_stay_apart heldInMemory_self sound_late (w := 7) rfl twoMore
  have houtcomes : visits.map (·.outcome) = [.ok [2147483646], .ok [2147483647]] :=
    Except.ok.inj (congrArg Prod.fst hexec).symm
  have hnumbers : e'.numbers = [2147483645, 2147483647, 2147483646, 2147483647] := by
    have hengines := congrArg (fun x => x.2.engines.map InMemoryEngine.numbers) hexec
    exact (List.cons.inj hengines).1.symm
  have hnodup : e.numbers.Nodup := by
    cases he
    decide
  have hroomy : ∀ d ∈ visits.flatMap (·.dealings), d.found.Roomy := by
    intro d hd number hmem
    have hgrown := found_grows heldInMemory_self hdeals (ofErrand_of_goes hgoes) hd
    have hlast : number ∈ e'.numbers := (hgrown.map _).subset hmem
    have hsmall : [2147483645, 2147483647, 2147483646, 2147483647].all
        (fun number : UInt32 => number.toNat < UInt32.size - 1) := by decide
    rw [hnumbers] at hlast
    exact of_decide_eq_true (List.all_eq_true.mp hsmall number hlast)
  obtain ⟨hiff, hnumbered⟩ := hall hnodup hroomy
  refine ⟨e, visits, e', he, hdeals, houtcomes, hnodup, hroomy, ?_, hnumbered⟩
  intro hnone
  have hagain : e'.numbers.Nodup := hiff.mpr hnone
  rw [hnumbers] at hagain
  revert hagain
  decide

/-- The account of imported keys and the new one share a number, and by this number only the
account of imported keys is found. -/
theorem number_given_twice :
    crowdedEngine.numbers.Nodup ∧ crowdedEngine.Roomy ∧ crowdedEngine.Crowded ∧
    (((load 7 crowdedEngine >>= fun _ => createAccount 7 "new" "passphrase").exec
      { config := {} }).1 = .ok 2147483647) ∧
    2147483647 ∈ crowdedEngine.numbers ∧
    crowdedOut.engines.map (·.numbers) = [[2147483646, 2147483647, 2147483647]] ∧
    ((lookup 7 2147483647).exec crowdedOut).1.toOption.map (fun a => (a.name, a.balance)) =
      some ("imported", ⟨⟨7⟩, ⟨7⟩, ⟨0⟩⟩) := by
  refine ⟨by decide, by decide, by decide, by decide +kernel, by decide, by decide +kernel,
    by decide +kernel⟩

end Registry

end Purse
