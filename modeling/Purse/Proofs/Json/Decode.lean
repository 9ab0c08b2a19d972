import Mathlib.Algebra.Group.Nat.Defs
import Mathlib.Data.List.Basic
import Purse.Json.Decode
import Purse.Proofs.Json.Scan

/-!
# Values are decoded as they were written

Every integer of its type is within the range that its decoder accepts, a record with
distinct names has exactly one field under each of them, and a natural number of 64 bits
may stand where it is skipped.
-/

namespace Purse.Json

/-! ## Scalars -/

theorem natBelow?_nat {bound n : Nat} (h : n < bound) : (nat n).natBelow? bound = some n := by
  have hin : (0 : Int) ≤ n ∧ (n : Int) ≤ (bound : Int) - 1 := by omega
  simp [natBelow?, nat, intIn?, hin]

@[simp]
theorem uint32?_toNat (n : UInt32) : (nat n.toNat).uint32? = some n := by
  simp [uint32?, natBelow?_nat n.toNat_lt_size]

@[simp]
theorem uint64?_toNat (n : UInt64) : (nat n.toNat).uint64? = some n := by
  simp [uint64?, natBelow?_nat n.toNat_lt_size]

@[simp]
theorem int32?_toInt (n : Int32) : (integer n.toInt).int32? = some n := by
  have hin : Int32.minValue.toInt ≤ n.toInt ∧ n.toInt ≤ Int32.maxValue.toInt :=
    ⟨n.minValue_le_toInt, n.toInt_le⟩
  rw [int32?, intIn?, if_pos hin, Option.map_some, Int32.ofInt_toInt]

@[simp]
theorem int64?_toInt (n : Int64) : (integer n.toInt).int64? = some n := by
  have hin : Int64.minValue.toInt ≤ n.toInt ∧ n.toInt ≤ Int64.maxValue.toInt :=
    ⟨n.minValue_le_toInt, n.toInt_le⟩
  rw [int64?, intIn?, if_pos hin, Option.map_some, Int64.ofInt_toInt]

theorem sum?_nat {n : Nat} (h : n < 2 ^ 128) : (nat n).sum? = some n :=
  natBelow?_nat h

@[simp]
theorem bool?_bool (b : Bool) : (bool b).bool? = some b := rfl

@[simp]
theorem string?_text (s : String) : (text s).string? = some s := rfl

@[simp]
theorem optional?_text (o : Option String) :
    ((o.map text).getD .null).optional? string? = some o := by
  cases o <;> rfl

/-- A list is decoded item by item. -/
theorem mapM_map {α : Type} {encode : α → Json} {decode : Json → Option α}
    (h : ∀ x, decode (encode x) = some x) (xs : List α) :
    (xs.map encode).mapM decode = some xs := by
  induction xs with
  | nil => rfl
  | cons x xs ih =>
    rw [List.map_cons, List.mapM_cons, h x, ih]
    rfl

/-! ## Records -/

variable {fs : List (String × Json)}

/-- A record has at most one value under a name. -/
theorem valuesOf_record (h : (fs.map (·.1)).Nodup) (name : String) :
    valuesOf name (fs.map fun f => (some f.1, f.2)) = (fs.lookup name).toList := by
  induction fs with
  | nil => rfl
  | cons f fs ih =>
    obtain ⟨key, value⟩ := f
    obtain ⟨hkey, hrest⟩ := List.nodup_cons.mp h
    by_cases heq : name = key
    · subst heq
      have hnone : fs.lookup name = none := by
        rw [List.lookup_eq_none_iff]
        intro p hp
        have hne : name ≠ p.1 := fun hname => hkey (List.mem_map.mpr ⟨p, hp, hname.symm⟩)
        exact bne_iff_ne.mpr hne
      have htail := ih hrest
      rw [hnone] at htail
      simp only [valuesOf, List.map_cons] at htail ⊢
      simp [htail]
    · have hskip : valuesOf name ((some key, value) :: fs.map fun f => (some f.1, f.2)) =
          valuesOf name (fs.map fun f => (some f.1, f.2)) := by
        simp [valuesOf, Ne.symm heq]
      rw [List.map_cons, hskip, ih hrest, List.lookup_cons, beq_false_of_ne heq]

/-- A record is read field by field. -/
theorem fields?_record (h : (fs.map (·.1)).Nodup) (names : List String) :
    (record fs).fields? names = some (names.map (fs.lookup ·)) := by
  have hwhole : (fs.map fun f => ((some f.1 : Json.Text), f.2)).all (·.1.isSome) := by simp
  have hone : ∀ o : Option Json, atMostOne? o.toList = some o := fun o => by cases o <;> rfl
  show (if (fs.map fun f => ((some f.1 : Json.Text), f.2)).all (·.1.isSome) then
    names.mapM fun name => atMostOne? (valuesOf name (fs.map fun f => (some f.1, f.2)))
    else none) = _
  rw [if_pos hwhole]
  induction names with
  | nil => rfl
  | cons name names ih =>
    rw [List.mapM_cons, ih, valuesOf_record h, hone]
    rfl

/-! ## Choices -/

@[simp]
theorem choice?_record (name : String) (contents : Json) :
    (record [(name, contents)]).choice? = some (name, some contents) := rfl

@[simp]
theorem choice?_text (name : String) : (text name).choice? = some (name, none) := rfl

/-! ## Values that nobody asks for -/

/-- Digits are taken up to the last one as long as their value fits into 64 bits. -/
theorem takeUp_eq {n : Nat} {cs : List Char} (h : Nat.ofDigitChars 10 cs n < UInt64.size) :
    Double.takeUp n cs = (Nat.ofDigitChars 10 cs n, 0) := by
  induction cs generalizing n with
  | nil => rfl
  | cons c cs ih =>
    rw [Nat.ofDigitChars_cons, Nat.mul_comm] at h
    have hlonger : n * 10 + (c.toNat - '0'.toNat) < UInt64.size := by
      rw [Nat.ofDigitChars_eq_ofDigitChars_zero] at h
      have hle := Nat.le_mul_of_pos_left (n * 10 + (c.toNat - '0'.toNat))
        (Nat.pow_pos (n := cs.length) (show 0 < 10 by omega))
      omega
    rw [Double.takeUp, if_pos hlonger, ih h, Nat.ofDigitChars_cons, Nat.mul_comm]

/-- Every number of 64 bits is within the range of doubles. -/
theorem isSound_nat {n : Nat} (h : n < UInt64.size) (depth : Nat) : (nat n).isSound depth := by
  have hvalue : Nat.ofDigitChars 10 (Nat.toDigits 10 n) 0 = n := Nat.ofDigitChars_ten_toDigits
  have htake : Double.takeUp 0 (Nat.toDigits 10 n) = (n, 0) := by
    rw [takeUp_eq (by rw [hvalue]; exact h), hvalue]
  show Double.inRange (Nat.toDigits 10 (n : Int).natAbs) [] 0 = true
  rw [Int.natAbs_natCast, Double.inRange, htake]
  simp [Double.takeUp, Double.isFinite]

@[simp]
theorem isSound_text (s : String) (depth : Nat) : (text s).isSound depth := rfl

end Purse.Json
