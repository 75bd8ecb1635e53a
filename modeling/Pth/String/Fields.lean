-- SUMMARY: The fields of `pth_snprintf`: single characters, strings and integers, and what an integer field denotes.
import Mathlib.Logic.Function.Basic
import Pth.Lib.Numeral

/-!
# Output fields

`dopr_outch` is the one place where a character leaves the formatter: it stores the character
if there is room, and counts it in any case. `fmtstr` and `fmtint` are loops around it. A
`Sink` keeps, next to the data of the program, a record of the characters that were passed to
`dopr_outch` and of the indices that were stored to. -/

namespace Pth

/-- A C string: the characters before its terminating NUL. -/
structure CString where
  chars : List Char
  noNul : '\x00' ∉ chars

/-- The bits `DP_F_MINUS` to `DP_F_UNSIGNED`. -/
structure FmtFlags where
  minus : Bool := false
  plus : Bool := false
  space : Bool := false
  num : Bool := false
  zero : Bool := false
  up : Bool := false
  unsigned : Bool := false
deriving DecidableEq

/-- Where `dopr` puts its characters; `written` and `emitted` are records. -/
structure Sink where
  buffer : Option (ℕ → Char)
  maxlen : ℕ
  currlen : ℕ := 0
  written : List ℕ := []
  emitted : List Char := []

namespace Sink

/-- `if (buffer != NULL) buffer[i] = c` -/
def store (s : Sink) (i : ℕ) (c : Char) : Sink :=
  match s.buffer with
  | none => s
  | some b => { s with buffer := some (Function.update b i c), written := s.written ++ [i] }

/-- `dopr_outch` -/
def doprOutch (s : Sink) (c : Char) : Sink :=
  let s := if s.currlen < s.maxlen then s.store s.currlen c else s
  { s with currlen := s.currlen + 1, emitted := s.emitted ++ [c] }

/-- The characters of a list, one after the other. -/
def emit (s : Sink) (cs : List Char) : Sink := cs.foldl doprOutch s

/-- A loop that puts out the same character `n` times. -/
def pad (s : Sink) (c : Char) : ℕ → Sink
  | 0 => s
  | n + 1 => (s.doprOutch c).pad c n

/-! ## Strings -/

/-- The length of the string fits in the `int` that counts it. -/
def Counted (value : CString) : Prop := value.chars.length ≤ 2 ^ 31 - 1

/-- A loop of `fmtstr`: the characters of a list as long as fewer than `max` have been put out;
    with the count of them. -/
def fmtstrLoop (max : ℤ) : List Char → Sink → ℤ → Sink × ℤ
  | [], s, cnt => (s, cnt)
  | c :: cs, s, cnt =>
    if cnt < max then fmtstrLoop max cs (s.doprOutch c) (cnt + 1) else (s, cnt)

/-- `fmtstr`, for strings whose length `strln` can count (`Sink.Counted`). -/
def fmtstr (s : Sink) (value : Option CString) (flags : FmtFlags) (min max : ℤ) : Sink :=
  let value := match value with
    | some v => v.chars
    | none => "<NULL>".toList
  let padlen := min - value.length
  let padlen := if padlen < 0 then 0 else padlen
  let padlen := if flags.minus then -padlen else padlen
  let (s, cnt) := fmtstrLoop max (List.replicate padlen.toNat ' ') s 0
  let (s, cnt) := fmtstrLoop max value s cnt
  (fmtstrLoop max (List.replicate (-padlen).toNat ' ') s cnt).1

/-! ## Integers -/

/-- The sign that `fmtint` puts out. -/
def signvalue (flags : FmtFlags) (value : BitVec 64) : Option Char :=
  if flags.unsigned then none
  else if value.toInt < 0 then some '-'
  else if flags.plus then some '+'
  else if flags.space then some ' '
  else none

/-- The `unsigned long long` that `fmtint` converts. The smallest `long long` is its own
    negative. -/
def uvalue (flags : FmtFlags) (value : BitVec 64) : ℕ :=
  if flags.unsigned = false ∧ value.toInt < 0 then (-value).toNat else value.toNat

def digitChar (caps : Bool) (d : ℕ) : Char :=
  (if caps then "0123456789ABCDEF" else "0123456789abcdef").toList.getD d '\x00'

/-- The loop that fills `convert` from the lowest digit on, with the number of its free places. -/
def convertLoop (caps : Bool) (base : ℕ) : ℕ → ℕ → List Char → List Char
  | 0, _, convert => convert
  | free + 1, uvalue, convert =>
    let convert := convert ++ [digitChar caps (uvalue % base)]
    let uvalue := uvalue / base
    if uvalue ≠ 0 then convertLoop caps base free uvalue convert else convert

/-- `zpadlen` and `spadlen`, from the bounds, the number of digits and whether there is a sign. -/
def padlens (flags : FmtFlags) (min max : ℤ) (place : ℕ) (sign : Bool) : ℤ × ℤ :=
  let zpadlen := max - place
  let spadlen := min - (if max ≥ place then max else place) - (if sign then 1 else 0)
  let zpadlen := if zpadlen < 0 then 0 else zpadlen
  let spadlen := if spadlen < 0 then 0 else spadlen
  let (zpadlen, spadlen) :=
    if flags.zero then (if zpadlen ≥ spadlen then zpadlen else spadlen, 0) else (zpadlen, spadlen)
  (zpadlen, if flags.minus then -spadlen else spadlen)

/-- `while (place > 0) dopr_outch(…, convert[--place])` -/
def putDigits (convert : List Char) : ℕ → Sink → Sink
  | 0, s => s
  | place + 1, s => putDigits convert place (s.doprOutch (convert.getD place '\x00'))

/-- `fmtint` -/
def fmtint (s : Sink) (value : BitVec 64) (base : ℕ) (min max : ℤ) (flags : FmtFlags) : Sink :=
  let max := if max < 0 then 0 else max
  let sign := signvalue flags value
  let convert := convertLoop flags.up base 20 (uvalue flags value) []
  let place := if convert.length = 20 then 19 else convert.length
  let (zpadlen, spadlen) := padlens flags min max place sign.isSome
  let s := s.pad ' ' spadlen.toNat
  let s := match sign with
    | some c => s.doprOutch c
    | none => s
  let s := s.pad '0' zpadlen.toNat
  let s := putDigits convert place s
  s.pad ' ' (-spadlen).toNat

/-! ## What is put out -/

variable {s : Sink}

@[simp] theorem emit_nil : s.emit [] = s := rfl

@[simp] theorem emit_cons (c : Char) (cs : List Char) :
    s.emit (c :: cs) = (s.doprOutch c).emit cs := rfl

theorem emit_append (cs cs' : List Char) : s.emit (cs ++ cs') = (s.emit cs).emit cs' :=
  List.foldl_append

@[simp] theorem emitted_store (i : ℕ) (c : Char) : (s.store i c).emitted = s.emitted := by
  unfold store
  split <;> rfl

@[simp] theorem emitted_doprOutch (c : Char) : (s.doprOutch c).emitted = s.emitted ++ [c] := by
  unfold doprOutch
  split <;> simp

theorem emitted_emit (cs : List Char) : (s.emit cs).emitted = s.emitted ++ cs := by
  induction cs generalizing s with
  | nil => simp
  | cons c cs ih => simp [ih]

@[simp] theorem currlen_store (i : ℕ) (c : Char) : (s.store i c).currlen = s.currlen := by
  unfold store
  split <;> rfl

@[simp] theorem currlen_doprOutch (c : Char) : (s.doprOutch c).currlen = s.currlen + 1 := by
  unfold doprOutch
  split <;> simp

theorem currlen_emit (cs : List Char) : (s.emit cs).currlen = s.currlen + cs.length := by
  induction cs generalizing s with
  | nil => rfl
  | cons c cs ih =>
    rw [emit_cons, ih, currlen_doprOutch, List.length_cons]
    omega

theorem pad_eq (c : Char) (n : ℕ) : s.pad c n = s.emit (List.replicate n c) := by
  induction n generalizing s with
  | zero => rfl
  | succ n ih => rw [pad, ih, List.replicate_succ, emit_cons]

theorem fmtstrLoop_full {max cnt : ℤ} (hcnt : max ≤ cnt) (cs : List Char) :
    fmtstrLoop max cs s cnt = (s, cnt) := by
  cases cs with
  | nil => rfl
  | cons c cs => rw [fmtstrLoop, if_neg (by omega)]

/-- The loops of `fmtstr` share their counter, so they are one loop over one list. -/
theorem fmtstrLoop_append (max : ℤ) (cs cs' : List Char) (cnt : ℤ) :
    fmtstrLoop max (cs ++ cs') s cnt =
      fmtstrLoop max cs' (fmtstrLoop max cs s cnt).1 (fmtstrLoop max cs s cnt).2 := by
  induction cs generalizing s cnt with
  | nil => rfl
  | cons c cs ih =>
    rw [List.cons_append, fmtstrLoop, fmtstrLoop]
    split
    · exact ih (cnt + 1)
    · rename_i hfull
      exact (fmtstrLoop_full (by omega) cs').symm

theorem fmtstrLoop_eq (max : ℤ) (cs : List Char) (cnt : ℤ) :
    (fmtstrLoop max cs s cnt).1 = s.emit (cs.take (max - cnt).toNat) := by
  induction cs generalizing s cnt with
  | nil => simp [fmtstrLoop]
  | cons c cs ih =>
    rw [fmtstrLoop]
    split
    · have hroom : (max - cnt).toNat = (max - (cnt + 1)).toNat + 1 := by omega
      rw [ih, hroom, List.take_succ_cons, emit_cons]
    · have hfull : (max - cnt).toNat = 0 := by omega
      simp [hfull]

/-- The characters that `fmtstr` puts out: the precision cuts the padded string. -/
def strField (value : Option CString) (flags : FmtFlags) (min max : ℤ) : List Char :=
  let value := match value with
    | some v => v.chars
    | none => "<NULL>".toList
  let padlen := min - value.length
  let padlen := if padlen < 0 then 0 else padlen
  let padlen := if flags.minus then -padlen else padlen
  (List.replicate padlen.toNat ' ' ++ value ++ List.replicate (-padlen).toNat ' ').take max.toNat

theorem fmtstr_eq (value : Option CString) (flags : FmtFlags) (min max : ℤ) :
    s.fmtstr value flags min max = s.emit (strField value flags min max) := by
  unfold fmtstr strField
  simp only [← fmtstrLoop_append]
  rw [fmtstrLoop_eq, Int.sub_zero]

theorem putDigits_eq {convert : List Char} {place : ℕ} (hplace : place ≤ convert.length) :
    putDigits convert place s = s.emit (convert.take place).reverse := by
  induction place generalizing s with
  | zero => rfl
  | succ place ih =>
    have hlt : place < convert.length := by omega
    have hget : convert.getD place '\x00' = convert[place] := by simp [List.getD, hlt]
    rw [putDigits, ih (by omega), List.take_succ_eq_append_getElem hlt, List.reverse_append, hget]
    rfl

/-- The digits of `convert` are those of the number, up to the free places. -/
theorem convertLoop_eq (caps : Bool) (base free n : ℕ) (convert : List Char) :
    convertLoop caps base free n convert =
      convert ++ (Numeral.digits base free n).map (digitChar caps) := by
  induction free generalizing n convert with
  | zero => simp [convertLoop, Numeral.digits]
  | succ free ih =>
    rw [convertLoop, Numeral.digits]
    by_cases hn : n / base = 0
    · simp [hn]
    · simp [hn, ih]

/-- The digits that `fmtint` puts out, lowest first: of 20 digits in `convert` the highest one
    is given up for the NUL. -/
def placed (flags : FmtFlags) (base : ℕ) (value : BitVec 64) : List ℕ :=
  Numeral.digits base 19 (uvalue flags value)

theorem convert_take_place (flags : FmtFlags) (base : ℕ) (value : BitVec 64) :
    let convert := convertLoop flags.up base 20 (uvalue flags value) []
    let place := if convert.length = 20 then 19 else convert.length
    place = (placed flags base value).length ∧ place ≤ convert.length ∧
      convert.take place = (placed flags base value).map (digitChar flags.up) := by
  intro convert place
  have hconvert : convert = (Numeral.digits base 20 (uvalue flags value)).map
      (digitChar flags.up) := by
    simp [convert, convertLoop_eq]
  have hlen : convert.length ≤ 20 := by
    rw [hconvert, List.length_map]
    exact Numeral.length_digits_le
  have hplace : place = min 19 convert.length := by
    simp only [place]
    split <;> omega
  have htake : convert.take place = (placed flags base value).map (digitChar flags.up) := by
    rw [hplace, ← List.take_take, List.take_length, hconvert, ← List.map_take,
      Numeral.take_digits]
    rfl
  refine ⟨?_, by omega, htake⟩
  have hlength := congrArg List.length htake
  rw [List.length_take, List.length_map] at hlength
  omega

/-- The padding of an integer field: the zeros, and the spaces with their side as the sign. -/
def intPads (flags : FmtFlags) (base : ℕ) (min max : ℤ) (value : BitVec 64) : ℤ × ℤ :=
  padlens flags min (if max < 0 then 0 else max) (placed flags base value).length
    (signvalue flags value).isSome

/-- The characters that `fmtint` puts out. -/
def intField (flags : FmtFlags) (base : ℕ) (min max : ℤ) (value : BitVec 64) : List Char :=
  let pads := intPads flags base min max value
  List.replicate pads.2.toNat ' ' ++ (signvalue flags value).toList ++
    (placed flags base value ++ List.replicate pads.1.toNat 0).reverse.map (digitChar flags.up) ++
    List.replicate (-pads.2).toNat ' '

theorem fmtint_eq (value : BitVec 64) (base : ℕ) (min max : ℤ) (flags : FmtFlags) :
    s.fmtint value base min max flags = s.emit (intField flags base min max value) := by
  obtain ⟨hplace, hle, htake⟩ := convert_take_place flags base value
  have hzero : digitChar flags.up 0 = '0' := by cases flags.up <;> rfl
  rw [fmtint, intField, intPads]
  simp only [pad_eq, putDigits_eq hle, htake]
  rw [hplace]
  cases signvalue flags value <;> simp [emit_append, hzero]

end Sink

end Pth
