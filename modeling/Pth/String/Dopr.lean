-- SUMMARY: `dopr`: the loop that interprets a format string.
import Pth.String.Fields

/-!
# The interpreter of format strings

`dopr` is a loop around a state machine. Its cursor is one character ahead of the state: every
state leaves the next character in `ch`, and the test for the end is made on `ch` alone, at the
top of the loop. A format is its characters and the NUL behind them; to read behind that NUL is
a fault. -/

namespace Pth

/-- The states `DP_S_DEFAULT` to `DP_S_DONE`. -/
inductive DoprState
  | default | flags | min | dot | max | mod | conv | done
deriving DecidableEq

/-- The conversion flags, or `0` for none of them. -/
inductive ConvFlags
  | none | short | long | ldouble | llong
deriving DecidableEq

/-- A variable argument: the word that is passed, the string behind it if it is a pointer to
    one, and the characters that `fmtfp` makes of it if it is a floating-point number. -/
structure Arg where
  word : BitVec 64
  str : Option CString
  fp : ConvFlags → ℤ → ℤ → FmtFlags → List Char

/-- `va_arg(args, int)` -/
def Arg.int (a : Arg) : ℤ := (a.word.setWidth 32).toInt

/-- The argument of `%d`, widened to `long long`. -/
def Arg.signed (a : Arg) : ConvFlags → BitVec 64
  | .short => (a.word.setWidth 16).signExtend 64
  | .long | .llong => a.word
  | .none | .ldouble => (a.word.setWidth 32).signExtend 64

/-- The argument of `%u`, widened to `long long`. -/
def Arg.unsigned (a : Arg) : ConvFlags → BitVec 64
  | .short => (a.word.setWidth 16).setWidth 64
  | .long | .llong => a.word
  | .none | .ldouble => (a.word.setWidth 32).setWidth 64

/-- The characters of a string with its NUL. -/
def CString.mem (s : CString) : List Char := s.chars ++ ['\x00']

/-- The variables of `dopr`: `format` is the index of the cursor and `args` the number of the
    arguments taken so far; `counts` records what `%n` stores, and through which pointer. -/
structure Dopr where
  state : DoprState := .default
  ch : Char
  format : ℕ
  flags : FmtFlags := {}
  cflags : ConvFlags := .none
  min : ℤ := 0
  max : ℤ := -1
  args : ℕ := 0
  counts : List (BitVec 64 × ConvFlags × ℕ) := []
  sink : Sink

namespace Dopr

/-- `ch = *format++` -/
def fetch (fmt : CString) (x : Dopr) : Option Dopr :=
  (fmt.mem[x.format]?).map fun c => { x with ch := c, format := x.format + 1 }

/-- The variables when the loop is entered. A size of `(size_t)-1` is `SIZE_MAX` already. -/
def start (fmt : CString) (s : Sink) : Dopr :=
  { ch := fmt.chars.headD '\x00', format := 1, sink := s }

/-! ## The states -/

def stepDefault (fmt : CString) (x : Dopr) : Option Dopr :=
  if x.ch = '%' then { x with state := .flags }.fetch fmt
  else { x with sink := x.sink.doprOutch x.ch }.fetch fmt

def stepFlags (fmt : CString) : Char → Dopr → Option Dopr
  | '-' => fun x => { x with flags := { x.flags with minus := true } }.fetch fmt
  | '+' => fun x => { x with flags := { x.flags with plus := true } }.fetch fmt
  | ' ' => fun x => { x with flags := { x.flags with space := true } }.fetch fmt
  | '#' => fun x => { x with flags := { x.flags with num := true } }.fetch fmt
  | '0' => fun x => { x with flags := { x.flags with zero := true } }.fetch fmt
  | _ => fun x => some { x with state := .min }

/-- `char_to_int` -/
def charToInt (c : Char) : ℤ := (c.toNat : ℤ) - '0'.toNat

def stepMin (fmt : CString) (args : ℕ → Arg) (x : Dopr) : Option Dopr :=
  if x.ch.isDigit then { x with min := 10 * x.min + charToInt x.ch }.fetch fmt
  else if x.ch = '*' then
    { x with min := (args x.args).int, args := x.args + 1, state := .dot }.fetch fmt
  else some { x with state := .dot }

def stepDot (fmt : CString) (x : Dopr) : Option Dopr :=
  if x.ch = '.' then { x with state := .max }.fetch fmt else some { x with state := .mod }

def stepMax (fmt : CString) (args : ℕ → Arg) (x : Dopr) : Option Dopr :=
  if x.ch.isDigit then
    { x with max := 10 * (if x.max < 0 then 0 else x.max) + charToInt x.ch }.fetch fmt
  else if x.ch = '*' then
    { x with max := (args x.args).int, args := x.args + 1, state := .mod }.fetch fmt
  else some { x with state := .mod }

def stepMod (fmt : CString) : Char → Dopr → Option Dopr
  | 'h' => fun x => { x with cflags := .short, state := .conv }.fetch fmt
  | 'l' => fun x =>
    (fmt.mem[x.format]?).bind fun c =>
      if c = 'l' then
        { x with cflags := .llong, format := x.format + 1, state := .conv }.fetch fmt
      else { x with cflags := .long, state := .conv }.fetch fmt
  | 'q' => fun x => { x with cflags := .llong, state := .conv }.fetch fmt
  | 'L' => fun x => { x with cflags := .ldouble, state := .conv }.fetch fmt
  | _ => fun x => some { x with state := .conv }

/-- An argument is taken, and the conversion leaves the sink as `s`. -/
def take (x : Dopr) (s : Sink) : Dopr := { x with sink := s, args := x.args + 1 }

/-- `fmtint` with the bounds of the directive. -/
def putInt (x : Dopr) (value : BitVec 64) (base : ℕ) (flags : FmtFlags) : Dopr :=
  x.take (x.sink.fmtint value base x.min x.max flags)

/-- The conversion that a character asks for. -/
def convert (fmt : CString) (args : ℕ → Arg) : Char → Dopr → Option Dopr
  | 'd' | 'i' => fun x => some (x.putInt ((args x.args).signed x.cflags) 10 x.flags)
  | 'X' => fun x => some (x.putInt ((args x.args).unsigned x.cflags) 16
      { x.flags with up := true, unsigned := true })
  | 'x' => fun x => some (x.putInt ((args x.args).unsigned x.cflags) 16
      { x.flags with unsigned := true })
  | 'o' => fun x => some (x.putInt ((args x.args).unsigned x.cflags) 8
      { x.flags with unsigned := true })
  | 'u' => fun x => some (x.putInt ((args x.args).unsigned x.cflags) 10
      { x.flags with unsigned := true })
  | 'f' => fun x =>
    some (x.take (x.sink.emit ((args x.args).fp x.cflags x.min x.max x.flags)))
  | 'E' | 'e' | 'G' | 'g' => fun x => some (x.take x.sink)
  | 'c' => fun x =>
    some (x.take (x.sink.doprOutch (Char.ofNat ((args x.args).word.toNat % 256))))
  | 's' => fun x =>
    let max := if x.max < 0 then 2 ^ 31 - 1 else x.max
    some (x.take (x.sink.fmtstr (args x.args).str x.flags x.min max))
  | 'p' => fun x => some (x.putInt (args x.args).word 16 x.flags)
  | 'n' => fun x =>
    let stored := ((args x.args).word, x.cflags, x.sink.currlen)
    some { x.take x.sink with counts := x.counts ++ [stored] }
  | '%' => fun x => some { x with sink := x.sink.doprOutch '%' }
  | 'w' => fetch fmt
  | _ => some

/-- The assignments at the end of a directive. -/
def reset (x : Dopr) : Dopr :=
  { x with state := .default, flags := {}, cflags := .none, min := 0, max := -1 }

def stepConv (fmt : CString) (args : ℕ → Arg) (x : Dopr) : Option Dopr :=
  (convert fmt args x.ch x).bind fun x => x.reset.fetch fmt

/-- The body of the loop of `dopr`. -/
def step (fmt : CString) (args : ℕ → Arg) (x : Dopr) : Option Dopr :=
  if x.ch = '\x00' then some { x with state := .done }
  else match x.state with
    | .default => x.stepDefault fmt
    | .flags => stepFlags fmt x.ch x
    | .min => x.stepMin fmt args
    | .dot => x.stepDot fmt
    | .max => x.stepMax fmt args
    | .mod => stepMod fmt x.ch x
    | .conv => x.stepConv fmt args
    | .done => some x

/-- The loop is left. -/
def isDone (x : Dopr) : Bool := x.state == .done

end Dopr

end Pth
