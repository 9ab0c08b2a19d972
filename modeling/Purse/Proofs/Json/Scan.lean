import Purse.Json.Token
import Purse.Json.Writer
import Purse.Proofs.Decimal

/-!
# Compact text in tokens

The compact text of a value is cut into the tokens of that value, as long as its strings
are whole and its numbers integers (`isExact`); nothing else is ever written of the values
of this library.

A string ends with its quote, but a number and a word only end where something comes that
cannot continue them. So `Reaches` says which tokens a scan has once its last one counts as
complete; the brackets, commas and colons of compact text complete it.

Main statement: `tokens?_chars`.
-/

namespace Purse.Json

/-! ## Values and their tokens -/

mutual

/-- Whether the compact text tells the value: every string is whole, every number an
integer. -/
def isExact : Json → Bool
  | .null | .bool _ | .integer _ => true
  | .real _ => false
  | .string value => value.isSome
  | .array items => areExact items
  | .object fields => haveExact fields

/-- `isExact` of every item. -/
def areExact : List Json → Bool
  | [] => true
  | item :: rest => isExact item && areExact rest

/-- `isExact` of every key and field. -/
def haveExact : List (Json.Text × Json) → Bool
  | [] => true
  | (key, value) :: rest => key.isSome && isExact value && haveExact rest

end

mutual

/-- The tokens of a value. -/
def tokens : Json → List Token
  | .array [] => [.openArray, .closeArray]
  | .array (item :: rest) => .openArray :: (tokens item ++ itemTokens rest)
  | .object [] => [.openObject, .closeObject]
  | .object ((key, value) :: rest) =>
    .openObject :: .scalar (.string key) :: .colon :: (tokens value ++ fieldTokens rest)
  | json => [.scalar json]

/-- The tokens of the items after the first. -/
def itemTokens : List Json → List Token
  | [] => [.closeArray]
  | item :: rest => .comma :: (tokens item ++ itemTokens rest)

/-- The tokens of the fields after the first. -/
def fieldTokens : List (Json.Text × Json) → List Token
  | [] => [.closeObject]
  | (key, value) :: rest =>
    .comma :: .scalar (.string key) :: .colon :: (tokens value ++ fieldTokens rest)

end

theorem areExact_eq (items : List Json) : areExact items = items.all isExact := by
  induction items with
  | nil => rfl
  | cons item items ih => rw [areExact, ih, List.all_cons]

theorem isExact_record (fs : List (String × Json)) :
    (record fs).isExact = fs.all (·.2.isExact) := by
  show haveExact (fs.map fun f => (some f.1, f.2)) = _
  induction fs with
  | nil => rfl
  | cons f fs ih =>
    rw [List.map_cons, haveExact, ih, List.all_cons]
    rfl

/-! ## Scans -/

namespace Scan

variable {s : Scan} {ts : List Token} {cs ds : List Char} {c : Char} {q : Quote} {n : Number}

/-- The scan after more characters. -/
def read (s : Scan) (cs : List Char) : Option Scan :=
  cs.foldlM step s

@[simp]
theorem read_nil : s.read [] = some s := rfl

@[simp]
theorem read_cons : s.read (c :: cs) = (s.step c).bind (·.read cs) := rfl

theorem read_append : s.read (cs ++ ds) = (s.read cs).bind (·.read ds) :=
  List.foldlM_append

/-- The scan with its last token complete. -/
def settled? (s : Scan) : Option Scan :=
  match s.mode with
  | .between => some s
  | .number n => n.value?.map fun v => s.emit (.scalar v)
  | .word letters => (wordValue? letters).map fun v => s.emit (.scalar v)
  | _ => none

/-- With its last token complete the scan has these tokens, in reverse. -/
def Reaches (s : Scan) (ts : List Token) : Prop :=
  s.settled? = some ⟨ts, .between⟩

theorem reaches_between : Reaches ⟨ts, .between⟩ ts := rfl

theorem finish_of_reaches (h : s.Reaches ts) : s.finish = some ts.reverse := by
  obtain ⟨tokens, mode⟩ := s
  cases mode with
  | between =>
    cases h
    rfl
  | number n =>
    obtain ⟨v, hv, heq⟩ := Option.map_eq_some_iff.mp h
    cases heq
    simp [finish, hv, emit]
  | word letters =>
    obtain ⟨v, hv, heq⟩ := Option.map_eq_some_iff.mp h
    cases heq
    simp [finish, hv, emit]
  | quote | escape | unit => cases h

/-- The characters that compact text has between scalars. -/
def delimiters : List Char :=
  ['[', ']', '{', '}', ',', ':']

/-- Delimiters cannot continue a number or a word. -/
theorem apart_of_mem_delimiters : ∀ c ∈ delimiters,
    c.isDigit = false ∧ c.isLower = false ∧ c ≠ '.' ∧ c ≠ 'e' ∧ c ≠ 'E' := by
  intro c hc
  simp only [delimiters, List.mem_cons, List.not_mem_nil, or_false] at hc
  rcases hc with rfl | rfl | rfl | rfl | rfl | rfl <;>
    exact ⟨rfl, rfl, by decide, by decide, by decide⟩

/-- A number that may end here ends before a delimiter. -/
theorem next_of_mem_delimiters (hc : c ∈ delimiters) {v : Json} (hv : n.value? = some v) :
    n.next c = .ends := by
  obtain ⟨hdigit, -, hpoint, he, hE⟩ := apart_of_mem_delimiters c hc
  obtain ⟨part, negative, whole, fraction, exponentNegative, exponent⟩ := n
  cases part with
  | zero | whole | fraction | exponent => simp [Number.next, hdigit, hpoint, he, hE]
  | sign | point | letter | exponentSign => cases hv

/-- A delimiter completes the last token. -/
theorem step_of_reaches (h : s.Reaches ts) (hc : c ∈ delimiters) :
    s.step c = start ⟨ts, .between⟩ c := by
  obtain ⟨-, hlower, -⟩ := apart_of_mem_delimiters c hc
  obtain ⟨tokens, mode⟩ := s
  cases mode with
  | between =>
    cases h
    rfl
  | number n =>
    obtain ⟨v, hv, heq⟩ := Option.map_eq_some_iff.mp h
    cases heq
    simp [step, next_of_mem_delimiters hc hv, hv, emit]
  | word letters =>
    obtain ⟨v, hv, heq⟩ := Option.map_eq_some_iff.mp h
    cases heq
    simp [step, hlower, hv, emit]
  | quote | escape | unit => cases h

/-! ## Numbers -/

/-- A number takes up digits before the point. -/
theorem read_digits (hn : n.part = .whole) (hds : ∀ d ∈ ds, d.isDigit) :
    read ⟨ts, .number n⟩ ds = some ⟨ts, .number { n with whole := ds.reverse ++ n.whole }⟩ := by
  induction ds generalizing n with
  | nil => simp
  | cons d ds ih =>
    have hstep : step ⟨ts, .number n⟩ d = some ⟨ts, .number (n.addWhole d)⟩ := by
      simp [step, Number.next, hn, hds d List.mem_cons_self]
    rw [read_cons, hstep, Option.bind_some, ih rfl fun d' hd' => hds d' (List.mem_cons_of_mem d hd')]
    simp [Number.addWhole, hn]

/-- The digits of a number other than zero, after its sign if it has one. -/
theorem read_toDigits {k : Nat} (h : 0 < k) (negative : Bool) :
    ∃ n : Number, n.part = .whole ∧ n.negative = negative ∧ Decimal.value n.whole.reverse = k ∧
      read ⟨ts, if negative then .number { part := .sign, negative := true } else .between⟩
        (Nat.toDigits 10 k) = some ⟨ts, .number n⟩ := by
  obtain ⟨d, ds, heq, hd⟩ := Decimal.exists_toDigits h
  have hds : ∀ c ∈ ds, c.isDigit := fun c hc =>
    Nat.isDigit_of_mem_toDigits (by omega) (by omega) (heq ▸ List.mem_cons_of_mem d hc)
  have hstep : step ⟨ts, if negative then .number { part := .sign, negative := true } else .between⟩
      d = some ⟨ts, .number { part := .whole, negative, whole := [d] }⟩ := by
    simp only [List.mem_cons, List.not_mem_nil, or_false] at hd
    rcases hd with rfl | rfl | rfl | rfl | rfl | rfl | rfl | rfl | rfl <;> cases negative <;> rfl
  refine ⟨{ part := .whole, negative, whole := ds.reverse ++ [d] }, rfl, rfl, ?_, ?_⟩
  · have hvalue := Decimal.value_toDigits k
    rw [heq] at hvalue
    simpa using hvalue
  · rw [heq, read_cons, hstep, Option.bind_some, read_digits rfl hds]

theorem read_integerText (k : Int) : ∃ s, read ⟨ts, .between⟩ (integerText k) = some s ∧
    s.Reaches (.scalar (.integer k) :: ts) := by
  unfold integerText
  rcases Int.lt_trichotomy k 0 with hk | rfl | hk
  · obtain ⟨n, hpart, hnegative, hvalue, hread⟩ :=
      @read_toDigits ts k.natAbs (by omega) true
    refine ⟨⟨ts, .number n⟩, ?_, ?_⟩
    · rw [if_pos hk]
      exact hread
    · have hk : -(k.natAbs : Int) = k := by omega
      simp only [Reaches, settled?, Number.value?, hpart, hnegative, hvalue, emit, if_true, hk,
        Option.map_some]
  · exact ⟨_, rfl, rfl⟩
  · obtain ⟨n, hpart, hnegative, hvalue, hread⟩ :=
      @read_toDigits ts k.natAbs (by omega) false
    refine ⟨⟨ts, .number n⟩, ?_, ?_⟩
    · rw [if_neg (by omega)]
      exact hread
    · have hk : (k.natAbs : Int) = k := by omega
      simp [Reaches, settled?, Number.value?, hpart, hnegative, hvalue, emit, hk]

/-! ## Strings -/

theorem read_unicodeEscape {n : Nat} (hn : n < 65536) :
    read ⟨ts, .quote q⟩ (unicodeEscape n) = some ⟨ts, .quote (q.pushUnit n)⟩ := by
  have hdigit : ∀ k, hexValue? (k % 16).digitChar = some (k % 16) := fun k =>
    hexValue?_digitChar _ (Nat.mod_lt k (by omega))
  have hvalue : ((n / 4096 % 16 * 16 + n / 256 % 16) * 16 + n / 16 % 16) * 16 + n % 16 = n := by
    omega
  simp [unicodeEscape, step, hdigit, hvalue]

/-- Every character of a string is taken up as itself, however it is written. -/
theorem read_charText (c : Char) :
    read ⟨ts, .quote q⟩ (charText c) = some ⟨ts, .quote (q.push c)⟩ := by
  by_cases hshort : c ∈ ['"', '\\', '\x08', '\x0c', '\n', '\r', '\t']
  · simp only [List.mem_cons, List.not_mem_nil, or_false] at hshort
    rcases hshort with rfl | rfl | rfl | rfl | rfl | rfl | rfl <;> rfl
  · simp only [List.mem_cons, List.not_mem_nil, or_false, not_or] at hshort
    obtain ⟨hquote, hslash, hb, hf, hn, hr, ht⟩ := hshort
    have htext : charText c = if c.toNat < 32 then unicodeEscape c.toNat else [c] := by
      simp [charText, hquote, hslash, hb, hf, hn, hr, ht]
    rw [htext]
    by_cases hcontrol : c.toNat < 32
    · have hunit : q.pushUnit c.toNat = q.push c := by
        unfold Quote.pushUnit
        rw [if_neg (by omega), if_neg (by omega), Char.ofNat_toNat]
      rw [if_pos hcontrol, read_unicodeEscape (by omega), hunit]
    · simp [hcontrol, step, hquote, hslash]

theorem read_flatMap_charText (hhalf : q.half = none) (cs : List Char) :
    read ⟨ts, .quote q⟩ (cs.flatMap charText) =
      some ⟨ts, .quote { q with chars := cs.reverse ++ q.chars }⟩ := by
  induction cs generalizing q with
  | nil => simp
  | cons c cs ih =>
    rw [List.flatMap_cons, read_append, read_charText, Option.bind_some, ih rfl]
    simp [Quote.push, hhalf]

theorem read_quoted {key : Json.Text} (h : key.isSome) :
    read ⟨ts, .between⟩ (quoted key) = some ⟨.scalar (.string key) :: ts, .between⟩ := by
  obtain ⟨text, rfl⟩ := Option.isSome_iff_exists.mp h
  have hopen : step ⟨ts, .between⟩ '"' = some ⟨ts, .quote {}⟩ := rfl
  rw [quoted, read_cons, hopen, Option.bind_some, read_append, read_flatMap_charText rfl]
  simp [step, emit, Quote.text]

/-! ## Values -/

/-- A delimiter after a value is a token of its own. -/
theorem read_delimiter {t : Token} (h : s.Reaches ts) (hc : c ∈ delimiters)
    (ht : ∀ ts, start ⟨ts, .between⟩ c = some ⟨t :: ts, .between⟩) :
    s.read (c :: cs) = read ⟨t :: ts, .between⟩ cs := by
  rw [read_cons, step_of_reaches h hc, ht, Option.bind_some]

/-- A key and its colon. -/
theorem read_key {key : Json.Text} (h : key.isSome) : read ⟨ts, .between⟩ (quoted key ++ ':' :: cs) =
    read ⟨.colon :: .scalar (.string key) :: ts, .between⟩ cs := by
  rw [read_append, read_quoted h, Option.bind_some,
    read_delimiter reaches_between (by decide) fun _ => rfl]

end Scan

open Scan (reaches_between read_append read_integerText read_quoted read_delimiter read_key)

mutual

/-- Compact text is cut into the tokens of its value. -/
theorem scan_chars : (ts : List Token) → (j : Json) → j.isExact →
    ∃ s, Scan.read ⟨ts, .between⟩ j.chars = some s ∧ s.Reaches (j.tokens.reverse ++ ts)
  | _, .null, _ => ⟨_, rfl, rfl⟩
  | _, .bool true, _ => ⟨_, rfl, rfl⟩
  | _, .bool false, _ => ⟨_, rfl, rfl⟩
  | _, .integer n, _ => read_integerText n
  | _, .string _, h => ⟨_, read_quoted h, rfl⟩
  | _, .array [], _ => ⟨_, rfl, rfl⟩
  | ts, .array (item :: rest), h => by
    rw [isExact, areExact, Bool.and_eq_true] at h
    obtain ⟨s, hread, hs⟩ := scan_chars (.openArray :: ts) item h.1
    refine ⟨⟨(itemTokens rest).reverse ++ (item.tokens.reverse ++ .openArray :: ts), .between⟩, ?_, ?_⟩
    · rw [chars, read_delimiter reaches_between (by decide) fun _ => rfl, read_append, hread,
        Option.bind_some, scan_itemsTail rest h.2 hs]
    · rw [tokens, List.reverse_cons, List.reverse_append, List.append_assoc, List.append_assoc]
      exact reaches_between
  | _, .object [], _ => ⟨_, rfl, rfl⟩
  | ts, .object ((key, value) :: rest), h => by
    rw [isExact, haveExact, Bool.and_eq_true, Bool.and_eq_true] at h
    obtain ⟨s, hread, hs⟩ :=
      scan_chars (.colon :: .scalar (.string key) :: .openObject :: ts) value h.1.2
    refine ⟨⟨(fieldTokens rest).reverse ++ (value.tokens.reverse ++
      .colon :: .scalar (.string key) :: .openObject :: ts), .between⟩, ?_, ?_⟩
    · rw [chars, read_delimiter reaches_between (by decide) fun _ => rfl, read_key h.1.1, read_append,
        hread, Option.bind_some, scan_fieldsTail rest h.2 hs]
    · simp [tokens, reaches_between]

theorem scan_itemsTail : {s : Scan} → {ts : List Token} → (rest : List Json) →
    areExact rest → s.Reaches ts →
    s.read (itemsTail rest) = some ⟨(itemTokens rest).reverse ++ ts, .between⟩
  | _, _, [], _, hs => read_delimiter hs (by decide) fun _ => rfl
  | s, ts, item :: rest, h, hs => by
    rw [areExact, Bool.and_eq_true] at h
    obtain ⟨s', hread, hs'⟩ := scan_chars (.comma :: ts) item h.1
    rw [itemsTail, read_delimiter hs (by decide) fun _ => rfl, read_append, hread, Option.bind_some,
      scan_itemsTail rest h.2 hs']
    simp [itemTokens]

theorem scan_fieldsTail : {s : Scan} → {ts : List Token} →
    (rest : List (Json.Text × Json)) → haveExact rest → s.Reaches ts →
    s.read (fieldsTail rest) = some ⟨(fieldTokens rest).reverse ++ ts, .between⟩
  | _, _, [], _, hs => read_delimiter hs (by decide) fun _ => rfl
  | s, ts, (key, value) :: rest, h, hs => by
    rw [haveExact, Bool.and_eq_true, Bool.and_eq_true] at h
    obtain ⟨s', hread, hs'⟩ :=
      scan_chars (.colon :: .scalar (.string key) :: .comma :: ts) value h.1.2
    rw [fieldsTail, read_delimiter hs (by decide) fun _ => rfl, read_key h.1.1, read_append, hread,
      Option.bind_some, scan_fieldsTail rest h.2 hs']
    simp [fieldTokens]

end

/-- The tokens of compact text are those of its value. -/
theorem tokens?_chars {j : Json} (h : j.isExact) : tokens? j.chars = some j.tokens := by
  obtain ⟨s, hread, hs⟩ := scan_chars [] j h
  rw [List.append_nil] at hs
  have hread : j.chars.foldlM Scan.step {} = some s := hread
  unfold tokens?
  rw [hread, Option.bind_eq_bind, Option.bind_some, Scan.finish_of_reaches hs, List.reverse_reverse]

end Purse.Json
