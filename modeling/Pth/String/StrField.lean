-- SUMMARY: String fields: what width and precision ask of `%s`, and when `fmtstr` keeps both.
import Pth.String.Dopr

/-!
# String fields

The field of a string is its beginning up to the precision, padded to the width. `fmtstr` pads
first and cuts then: the length of the padding comes from the whole string, and the precision
bounds one counter for all that is put out. -/

namespace Pth

/-! ## Fields -/

/-- A text with spaces up to a width, on the left or, under `-`, on the right. -/
def justify (minus : Bool) (width : ℕ) (text : List Char) : List Char :=
  if minus then text.rightpad width ' ' else text.leftpad width ' '

/-- The beginning of a text up to a precision, if there is one. -/
def cut (precision : Option ℕ) (text : List Char) : List Char :=
  match precision with
  | some p => text.take p
  | none => text

section

variable {minus : Bool} {width p : ℕ} {text : List Char}

theorem length_justify : (justify minus width text).length = max width text.length := by
  cases minus with
  | false => exact List.length_leftpad
  | true => exact List.length_rightpad

theorem justify_of_le (h : width ≤ text.length) : justify minus width text = text := by
  have hpad : width - text.length = 0 := by omega
  cases minus <;> simp [justify, List.leftpad, List.rightpad, hpad]

/-- A padded text that is cut is the padded beginning, as long as the width is not cut. -/
theorem take_justify (h : width ≤ p) :
    (justify minus width text).take p = justify minus width (text.take p) := by
  by_cases hp : text.length ≤ p
  · have hlen : (justify minus width text).length ≤ p := by
      rw [length_justify]
      omega
    rw [List.take_of_length_le hlen, List.take_of_length_le hp]
  · have hlen : width ≤ (text.take p).length := by
      rw [List.length_take]
      omega
    rw [justify_of_le (by omega), justify_of_le hlen]

theorem take_justify_iff :
    (justify minus width text).take p = justify minus width (text.take p) ↔ width ≤ p := by
  refine ⟨fun h => ?_, take_justify⟩
  have hlen := congrArg List.length h
  rw [List.length_take, length_justify, length_justify] at hlen
  omega

theorem take_justify_self_iff :
    (justify minus width text).take p = justify minus width text ↔
      width ≤ p ∧ text.length ≤ p := by
  rw [List.take_eq_self_iff, length_justify]
  omega

end

/-! ## `fmtstr` -/

namespace Sink

theorem strField_eq (value : CString) (flags : FmtFlags) (width : ℕ) (max : ℤ) :
    strField (some value) flags width max =
      (justify flags.minus width value.chars).take max.toNat := by
  have hpad : (if (width : ℤ) - value.chars.length < 0 then 0
      else (width : ℤ) - value.chars.length) = ((width - value.chars.length : ℕ) : ℤ) := by
    omega
  unfold strField justify
  simp only [hpad]
  cases flags.minus <;> simp [List.leftpad, List.rightpad]

end Sink

/-! ## The directive -/

namespace Dopr

/-- The precision of a directive; without one, `max` is negative. -/
def precision (x : Dopr) : Option ℕ := if x.max < 0 then none else some x.max.toNat

/-- What is put out for `%s`: the string up to the precision, padded to the width. -/
def stringField (x : Dopr) (value : CString) : List Char :=
  justify x.flags.minus x.min.toNat (cut x.precision value.chars)

/-- The string is not longer than `INT_MAX`, and the width is not above the precision or, without
    one, above `INT_MAX`. -/
def WidthFits (x : Dopr) (value : CString) : Prop :=
  Sink.Counted value ∧ x.min.toNat ≤ x.precision.getD (2 ^ 31 - 1)

variable {args : ℕ → Arg} {x : Dopr} {value : CString}

/-- The characters of `%s`: the string is padded first, and what comes out is cut. -/
theorem convert_string (fmt : CString) (hstr : (args x.args).str = some value)
    (hmin : 0 ≤ x.min) :
    ∃ x', convert fmt args 's' x = some x' ∧ x'.sink.emitted = x.sink.emitted ++
      (justify x.flags.minus x.min.toNat value.chars).take (x.precision.getD (2 ^ 31 - 1)) := by
  refine ⟨_, rfl, ?_⟩
  have hwidth : x.min = (x.min.toNat : ℤ) := by omega
  have hmax : (if x.max < 0 then 2 ^ 31 - 1 else x.max).toNat =
      x.precision.getD (2 ^ 31 - 1) := by
    unfold precision
    split <;> rfl
  simp only [take]
  rw [hstr, Sink.fmtstr_eq, Sink.emitted_emit, hwidth, Sink.strField_eq, hmax]
  rfl

/-- For every string, width and precision, and on either side, `%s` counts the string and puts out
    the field that they ask for exactly if the precision does not cut the padding. -/
theorem string_field_iff (fmt : CString) (hstr : (args x.args).str = some value)
    (hmin : 0 ≤ x.min) :
    (Sink.Counted value ∧ ∃ x', convert fmt args 's' x = some x' ∧
      x'.sink.emitted = x.sink.emitted ++ x.stringField value) ↔ x.WidthFits value := by
  obtain ⟨x', hconvert, hemitted⟩ := convert_string fmt hstr hmin
  have hfield : (∃ x', convert fmt args 's' x = some x' ∧
      x'.sink.emitted = x.sink.emitted ++ x.stringField value) ↔
      (justify x.flags.minus x.min.toNat value.chars).take (x.precision.getD (2 ^ 31 - 1)) =
        x.stringField value := by
    simp [hconvert, hemitted]
  refine and_congr_right fun hcounted => ?_
  rw [hfield, stringField]
  cases x.precision with
  | none => exact take_justify_self_iff.trans (and_iff_left hcounted)
  | some p => exact take_justify_iff

/-- The directive `%5s` with a precision and a side, in front of its conversion. -/
def five (max : ℤ) (minus : Bool) : Dopr :=
  { state := .conv, ch := 's', format := 0, flags := { minus := minus }, min := 5, max := max,
    sink := { buffer := none, maxlen := 0 } }

def abc : CString := ⟨"abc".toList, by decide⟩

def abcArgs (_ : ℕ) : Arg := ⟨0, some abc, fun _ _ _ _ => []⟩

theorem string_field_abc : (five 8 true).WidthFits abc ∧ ∃ x',
    convert abc abcArgs 's' (five 8 true) = some x' ∧
      x'.sink.emitted = (five 8 true).sink.emitted ++ (five 8 true).stringField abc := by
  have hfits : (five 8 true).WidthFits abc :=
    ⟨Nat.le_of_ble_eq_true rfl, Nat.le_of_ble_eq_true rfl⟩
  exact ⟨hfits, ((string_field_iff abc rfl (by decide)).mpr hfits).2⟩

/-- Of `%5.2s` and `%-5.2s` the first puts out two spaces and the second two letters, where a
    field of five characters is asked for. -/
theorem string_field_cut :
    ((convert abc abcArgs 's' (five 2 false)).map (·.sink.emitted) = some "  ".toList ∧
      (five 2 false).stringField abc = "   ab".toList) ∧
    (convert abc abcArgs 's' (five 2 true)).map (·.sink.emitted) = some "ab".toList ∧
      (five 2 true).stringField abc = "ab   ".toList := by
  decide

end Dopr

end Pth
