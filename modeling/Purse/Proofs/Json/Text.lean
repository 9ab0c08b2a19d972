import Purse.Json.Reader
import Purse.Proofs.Json.Scan

/-!
# Compact text is read back

The reader makes of the tokens of a value that value, whatever is still open around it.
With `tokens?_chars` the compact text of a value that is exact is read back as the value,
so no two exact values have the same text.
-/

namespace Purse.Json

namespace Reading

variable {ts us : List Token}

/-- The reading after more tokens. -/
def read (r : Reading) (ts : List Token) : Option Reading :=
  ts.foldlM step r

@[simp]
theorem read_nil {r : Reading} : r.read [] = some r := rfl

@[simp]
theorem read_cons {r : Reading} {t : Token} : r.read (t :: ts) = (r.step t).bind (·.read ts) := rfl

theorem read_append {r : Reading} : r.read (ts ++ us) = (r.read ts).bind (·.read us) :=
  List.foldlM_append

/-- No value begins with the end of an array. -/
theorem tokens_eq_cons : (j : Json) → ∃ t ts, j.tokens = t :: ts ∧ t ≠ .closeArray
  | .array [] | .array (_ :: _) | .object [] | .object (_ :: _) => ⟨_, _, rfl, nofun⟩
  | .null | .bool _ | .integer _ | .real _ | .string _ => ⟨_, _, rfl, nofun⟩

/-- Where an array has just been opened, a value may follow as after a comma. -/
theorem read_firstItem {stack : List Frame} (j : Json) (us : List Token) :
    read (.firstItem stack) (j.tokens ++ us) = read (.value (.array [] :: stack)) (j.tokens ++ us) := by
  obtain ⟨t, ts, heq, hne⟩ := tokens_eq_cons j
  rw [heq]
  cases t with
  | closeArray => exact absurd rfl hne
  | openArray | openObject | closeObject | comma | colon | scalar => rfl

end Reading

open Reading (read_cons read_append read_firstItem)

mutual

/-- The tokens of a value are read as that value. -/
theorem read_tokens : (stack : List Frame) → (j : Json) →
    Reading.read (.value stack) j.tokens = some (.after stack j)
  | _, .null | _, .bool _ | _, .integer _ | _, .real _ | _, .string _ => rfl
  | _, .array [] | _, .object [] => rfl
  | stack, .array (item :: rest) => by
    show Reading.read (.firstItem stack) (item.tokens ++ itemTokens rest) = _
    rw [read_firstItem, read_append, read_tokens _ item, Option.bind_some, read_itemTokens]
    rfl
  | stack, .object ((key, value) :: rest) => by
    show Reading.read (.value (.object [] key :: stack)) (value.tokens ++ fieldTokens rest) = _
    rw [read_append, read_tokens _ value, Option.bind_some, read_fieldTokens]
    rfl

/-- The items after the first join those that are already there. -/
theorem read_itemTokens : (rest : List Json) → {stack : List Frame} → {items : List Json} →
    {j : Json} → Reading.read (.after (.array items :: stack) j) (itemTokens rest) =
      some (.after stack (.array (items.reverse ++ j :: rest)))
  | [], stack, items, j => by
    show some (Reading.after stack (.array (j :: items).reverse)) = _
    rw [List.reverse_cons]
  | item :: rest, stack, items, j => by
    show Reading.read (.value (.array (j :: items) :: stack)) (item.tokens ++ itemTokens rest) = _
    rw [read_append, read_tokens _ item, Option.bind_some, read_itemTokens rest, List.reverse_cons,
      List.append_assoc, List.singleton_append]

/-- The fields after the first join those that are already there. -/
theorem read_fieldTokens : (rest : List (Json.Text × Json)) → {stack : List Frame} →
    {fields : List (Json.Text × Json)} → {key : Json.Text} → {j : Json} →
    Reading.read (.after (.object fields key :: stack) j) (fieldTokens rest) =
      some (.after stack (.object (fields.reverse ++ (key, j) :: rest)))
  | [], stack, fields, key, j => by
    show some (Reading.after stack (.object ((key, j) :: fields).reverse)) = _
    rw [List.reverse_cons]
  | (next, value) :: rest, stack, fields, key, j => by
    show Reading.read (.value (.object ((key, j) :: fields) next :: stack))
      (value.tokens ++ fieldTokens rest) = _
    rw [read_append, read_tokens _ value, Option.bind_some, read_fieldTokens rest,
      List.reverse_cons, List.append_assoc, List.singleton_append]

end

theorem ofTokens?_tokens (j : Json) : ofTokens? j.tokens = some j := by
  have hread : j.tokens.foldlM Reading.step (.value []) = some (.after [] j) := read_tokens [] j
  simp [ofTokens?, hread, Reading.finish]

/-- Compact text is read back as the value it was written for. -/
theorem parse?_render {j : Json} (h : j.isExact) : parse? j.render = some j := by
  rw [parse?, render, String.toList_ofList, tokens?_chars h]
  exact ofTokens?_tokens j

end Purse.Json
