-- SUMMARY: What the fields of `fmtint` denote, and for which values, widths and precisions they do.
import Pth.String.Fields

/-!
# Integer fields

A field denotes a value if it consists of spaces on one side, a sign and a numeral of the
magnitude, with as many digits as the precision and as many characters as the width ask for.
`fmtint` keeps 19 digits of a number and no more. Under `'0'` it takes the larger one of the
zeros for the precision and the padding for the width, where the width needs both. -/

namespace Pth

/-- The digit that a character stands for. -/
def digitValue (c : Char) : Option ℕ :=
  if '0' ≤ c ∧ c ≤ '9' then some (c.toNat - '0'.toNat)
  else if 'a' ≤ c ∧ c ≤ 'f' then some (c.toNat - 'a'.toNat + 10)
  else if 'A' ≤ c ∧ c ≤ 'F' then some (c.toNat - 'A'.toNat + 10)
  else none

namespace FmtFlags

/-- A conversion with these flags takes the value for a negative one. -/
def negative (flags : FmtFlags) (value : BitVec 64) : Bool :=
  !flags.unsigned && decide (value.toInt < 0)

/-- The magnitude of the value under a conversion with these flags. -/
def magnitude (flags : FmtFlags) (value : BitVec 64) : ℕ :=
  if flags.unsigned then value.toNat else value.toInt.natAbs

/-- The number of characters that the sign takes. -/
def signLength (flags : FmtFlags) (value : BitVec 64) : ℕ :=
  if flags.unsigned = false ∧ (value.toInt < 0 ∨ flags.plus ∨ flags.space) then 1 else 0

end FmtFlags

/-- The parts of a field that denotes `value`. -/
structure IntField (flags : FmtFlags) (base width precision : ℕ) (value : BitVec 64)
    (field before sign digits after : List Char) : Prop where
  field_eq : field = before ++ sign ++ digits ++ after
  before_spaces : ∀ c ∈ before, c = ' '
  after_spaces : ∀ c ∈ after, c = ' '
  one_side : before = [] ∨ after = []
  sign_eq : sign = [] ∨ sign = ['+'] ∨ sign = [' '] ∨ sign = ['-']
  sign_neg : sign = ['-'] ↔ flags.negative value
  read_digits : Numeral.read digitValue base digits = some (flags.magnitude value)
  precision_le : precision ≤ digits.length
  width_le : width ≤ field.length

/-- The field denotes `value` in base `base` and obeys the width and the precision. -/
def Denotes (flags : FmtFlags) (base width precision : ℕ) (value : BitVec 64)
    (field : List Char) : Prop :=
  ∃ before sign digits after,
    IntField flags base width precision value field before sign digits after

variable {flags : FmtFlags} {base width precision : ℕ} {value : BitVec 64}
variable {field before sign digits after : List Char}

/-- The digits of a field are all of its characters that stand for a digit. -/
theorem filter_parts (hbefore : ∀ c ∈ before, c = ' ') (hafter : ∀ c ∈ after, c = ' ')
    (hsign : sign = [] ∨ sign = ['+'] ∨ sign = [' '] ∨ sign = ['-'])
    (hdigits : ∀ c ∈ digits, (digitValue c).isSome) :
    (before ++ sign ++ digits ++ after).filter (fun c => (digitValue c).isSome) = digits := by
  have hspaces {l : List Char} (hl : ∀ c ∈ l, c = ' ') :
      l.filter (fun c => (digitValue c).isSome) = [] := by
    have hspace : digitValue ' ' = none := by decide
    rw [List.filter_eq_nil_iff]
    intro c hc
    simp [hl c hc, hspace]
  have hsign : sign.filter (fun c => (digitValue c).isSome) = [] := by
    obtain rfl | rfl | rfl | rfl := hsign <;> decide
  simp only [List.filter_append, hspaces hbefore, hspaces hafter, hsign, List.nil_append,
    List.append_nil]
  exact List.filter_eq_self.mpr hdigits

namespace Sink

theorem digitValue_digitChar {caps : Bool} {d : ℕ} (hd : d < 16) :
    digitValue (digitChar caps d) = some d := by
  have hall : ∀ caps, ∀ d < 16, digitValue (digitChar caps d) = some d := by decide
  exact hall caps d hd

/-- Negating in 64 bits gives the magnitude, of the smallest `long long` too. -/
theorem uvalue_eq (flags : FmtFlags) (value : BitVec 64) :
    uvalue flags value = flags.magnitude value := by
  unfold uvalue FmtFlags.magnitude
  cases flags.unsigned with
  | true => simp
  | false =>
    have hlt : value.toNat < 2 ^ 64 := value.isLt
    simp only [true_and, Bool.false_eq_true, if_false, BitVec.toInt_eq_toNat_cond,
      BitVec.toNat_neg]
    split <;> split <;> omega

theorem signvalue_length (flags : FmtFlags) (value : BitVec 64) :
    (signvalue flags value).toList.length = flags.signLength value := by
  unfold signvalue FmtFlags.signLength
  by_cases hneg : value.toInt < 0
  · cases flags.unsigned <;> simp [hneg]
  · cases flags.unsigned <;> cases flags.plus <;> cases flags.space <;> simp [hneg]

theorem signvalue_toList (flags : FmtFlags) (value : BitVec 64) :
    let sign := (signvalue flags value).toList
    (sign = [] ∨ sign = ['+'] ∨ sign = [' '] ∨ sign = ['-']) ∧
      (sign = ['-'] ↔ flags.negative value) := by
  unfold signvalue FmtFlags.negative
  by_cases hneg : value.toInt < 0
  · cases flags.unsigned <;> simp [hneg]
  · cases flags.unsigned <;> cases flags.plus <;> cases flags.space <;> simp [hneg]

/-- What the two lengths of padding achieve: the precision is always met, the width except
    where the zeros for the precision are taken for those of the width. -/
theorem padlens_spec (flags : FmtFlags) (width precision place : ℕ) (sign : Option Char) :
    let pads := padlens flags width precision place sign.isSome
    precision ≤ place + pads.1.toNat ∧ (pads.2.toNat = 0 ∨ (-pads.2).toNat = 0) ∧
      (width ≤ pads.2.toNat + sign.toList.length + (place + pads.1.toNat) + (-pads.2).toNat ↔
        ¬ (flags.zero ∧ place < precision ∧ precision + sign.toList.length < width)) := by
  have hsign : (if sign.isSome then (1 : ℤ) else 0) = sign.toList.length := by
    cases sign <;> rfl
  intro pads
  simp only [pads, padlens, hsign]
  cases flags.zero <;> cases flags.minus <;> simp <;> split_ifs <;> omega

/-- The zeros and the digits of a field read as the last 19 digits of the magnitude. -/
theorem read_placed (flags : FmtFlags) (value : BitVec 64) (hbase : 2 ≤ base) (hbase' : base ≤ 16)
    (n : ℕ) :
    Numeral.read digitValue base
        ((placed flags base value ++ List.replicate n 0).reverse.map (digitChar flags.up)) =
      some (flags.magnitude value % base ^ 19) := by
  have hlt : ∀ d ∈ placed flags base value ++ List.replicate n 0, d < base := by
    intro d hd
    rcases List.mem_append.mp hd with hd | hd
    · exact Numeral.digits_lt (by omega) d hd
    · have hzero : d = 0 := List.eq_of_mem_replicate hd
      omega
  rw [Numeral.read_reverse_map (fun d hd => digitValue_digitChar ((hlt d hd).trans_le hbase')) hlt,
    Nat.ofDigits_append_replicate_zero, placed, Numeral.ofDigits_digits, uvalue_eq]

/-- Below the cut-off, the number of digits against the precision. -/
theorem length_placed_lt_iff (hbase : 2 ≤ base) (hvalue : flags.magnitude value < base ^ 19) :
    (placed flags base value).length < precision ↔
      2 ≤ precision ∧ flags.magnitude value < base ^ (precision - 1) := by
  have hpos : 1 ≤ (placed flags base value).length := by simp [placed, Numeral.digits]
  by_cases hprecision : 2 ≤ precision
  · rw [← Nat.le_sub_one_iff_lt (by omega), placed, uvalue_eq,
      Numeral.length_digits_le_iff (by omega) hvalue (by omega)]
    simp [hprecision]
  · constructor
    · omega
    · exact fun h => absurd h.1 hprecision

/-- The padding of a field, for a width and a precision that are given. -/
theorem intPads_spec (flags : FmtFlags) (base width precision : ℕ) (value : BitVec 64) :
    let pads := intPads flags base width precision value
    let place := (placed flags base value).length
    precision ≤ place + pads.1.toNat ∧ (pads.2.toNat = 0 ∨ (-pads.2).toNat = 0) ∧
      (width ≤ pads.2.toNat + flags.signLength value + (place + pads.1.toNat) + (-pads.2).toNat ↔
        ¬ (flags.zero ∧ place < precision ∧ precision + flags.signLength value < width)) := by
  have hmax : (if (precision : ℤ) < 0 then 0 else (precision : ℤ)) = precision := by omega
  have hspec := padlens_spec flags width precision (placed flags base value).length
    (signvalue flags value)
  rwa [signvalue_length, ← hmax] at hspec

theorem width_le_intField_iff :
    width ≤ (intField flags base width precision value).length ↔
      ¬ (flags.zero ∧ (placed flags base value).length < precision ∧
        precision + flags.signLength value < width) := by
  obtain ⟨-, -, hwidth⟩ := intPads_spec flags base width precision value
  rw [← hwidth]
  simp [intField, signvalue_length, Nat.add_assoc, Nat.add_left_comm]

/-- A field that is wide enough denotes its value, unless digits of it were cut. -/
theorem denotes_intField (hbase : 2 ≤ base) (hbase' : base ≤ 16)
    (hvalue : flags.magnitude value < base ^ 19)
    (hwidth : width ≤ (intField flags base width precision value).length) :
    Denotes flags base width precision value (intField flags base width precision value) := by
  obtain ⟨hprecision, hside, -⟩ := intPads_spec flags base width precision value
  obtain ⟨hsign, hneg⟩ := signvalue_toList flags value
  refine ⟨_, _, _, _, ⟨rfl, ?_, ?_, ?_, hsign, hneg, ?_, ?_, hwidth⟩⟩
  · exact fun c hc => List.eq_of_mem_replicate hc
  · exact fun c hc => List.eq_of_mem_replicate hc
  · simpa only [List.replicate_eq_nil_iff] using hside
  · rw [read_placed flags value hbase hbase', Nat.mod_eq_of_lt hvalue]
  · simpa [Nat.add_comm] using hprecision

/-- A field that denotes its value was not cut, whatever parts it is taken apart into. -/
theorem magnitude_lt_of_denotes (hbase : 2 ≤ base) (hbase' : base ≤ 16)
    (h : Denotes flags base width precision value (intField flags base width precision value)) :
    flags.magnitude value < base ^ 19 := by
  obtain ⟨before, sign, digits, after, h⟩ := h
  have hread := read_placed flags value hbase hbase'
    (intPads flags base width precision value).1.toNat
  have hdigits := filter_parts h.before_spaces h.after_spaces h.sign_eq
    (Numeral.isSome_of_read h.read_digits)
  rw [← h.field_eq, intField, filter_parts (fun c hc => List.eq_of_mem_replicate hc)
    (fun c hc => List.eq_of_mem_replicate hc) (signvalue_toList flags value).1
    (Numeral.isSome_of_read hread)] at hdigits
  rw [hdigits, h.read_digits, Option.some_inj] at hread
  rw [hread]
  exact Nat.mod_lt _ (Nat.pow_pos (by omega))

/-- The field that `fmtint` puts out denotes its value exactly if the magnitude has no more than
    19 digits and the width is not lost: under `'0'` it is when the precision asks for zeros and
    the width for more than precision and sign take. -/
theorem fmtint_denotes_iff (s : Sink) (flags : FmtFlags) (base width precision : ℕ)
    (value : BitVec 64) (hbase : 2 ≤ base) (hbase' : base ≤ 16) :
    (∃ field, (s.fmtint value base width precision flags).emitted = s.emitted ++ field ∧
      Denotes flags base width precision value field) ↔
    flags.magnitude value < base ^ 19 ∧
      ¬ (flags.zero ∧ (2 ≤ precision ∧ flags.magnitude value < base ^ (precision - 1)) ∧
        precision + flags.signLength value < width) := by
  rw [fmtint_eq, emitted_emit]
  constructor
  · rintro ⟨field, hfield, h⟩
    obtain rfl := List.append_cancel_left hfield
    have hvalue := magnitude_lt_of_denotes hbase hbase' h
    obtain ⟨_, _, _, _, hparts⟩ := h
    have hwidth := width_le_intField_iff.mp hparts.width_le
    rw [length_placed_lt_iff hbase hvalue] at hwidth
    exact ⟨hvalue, hwidth⟩
  · rintro ⟨hvalue, hwidth⟩
    rw [← length_placed_lt_iff hbase hvalue] at hwidth
    exact ⟨_, rfl, denotes_intField hbase hbase' hvalue (width_le_intField_iff.mpr hwidth)⟩

theorem fmtint_denotes_minus_seven : ∃ field,
    (fmtint { buffer := none, maxlen := 0 } (-7) 10 5 3 {}).emitted = field ∧
      Denotes {} 10 5 3 (-7) field :=
  (fmtint_denotes_iff { buffer := none, maxlen := 0 } {} 10 5 3 (-7) (by decide) (by decide)).mpr
    (by decide)

/-- `%llu` of the largest `unsigned long long` loses the leading digit, and `%08.3d` of 5 is
    six characters wide. -/
theorem fmtint_not_denotes :
    ((fmtint { buffer := none, maxlen := 0 } (-1) 10 0 0 { unsigned := true }).emitted =
        "8446744073709551615".toList ∧
      ¬ Denotes { unsigned := true } 10 0 0 (-1) "8446744073709551615".toList) ∧
    (fmtint { buffer := none, maxlen := 0 } 5 10 8 3 { zero := true }).emitted =
        "000005".toList ∧
      ¬ Denotes { zero := true } 10 8 3 5 "000005".toList := by
  have hcut : intField { unsigned := true } 10 (0 : ℕ) (0 : ℕ) (-1) =
    "8446744073709551615".toList := by decide
  refine ⟨⟨by decide, ?_⟩, by decide, ?_⟩
  · intro h
    have hlt := magnitude_lt_of_denotes (by decide) (by decide) (hcut ▸ h)
    revert hlt
    decide
  · rintro ⟨_, _, _, _, h⟩
    have hwidth := h.width_le
    revert hwidth
    decide

end Sink

end Pth
