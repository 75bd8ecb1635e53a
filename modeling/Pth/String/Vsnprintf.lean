-- SUMMARY: `pth_vsnprintf`: what it stores is the beginning of what it formats, whatever the buffer.
import Pth.String.Cursor

/-!
# Formatting into a buffer

No branch of the formatter looks at the buffer or at its size: with any two sinks of the same
count a run makes the same moves and puts out the same characters. A sink keeps those that
there is room for, and the end of `dopr` cuts the result to leave a place for the NUL. -/

namespace Pth

/-- The end of `dopr`: the count is cut to the size and the NUL is stored behind the text. The
    size is a `size_t`. -/
def Sink.finish (s : Sink) : ℕ × Sink :=
  let last := (s.maxlen + (2 ^ 64 - 1)) % 2 ^ 64
  let currlen := if last ≤ s.currlen then last else s.currlen
  (currlen, { s with currlen := currlen }.store currlen '\x00')

/-- `dopr`, with the value that it leaves in `retlen`. -/
def dopr (s : Sink) (fmt : CString) (args : ℕ → Arg) : Option (ℕ × Sink) :=
  (While.run (Dopr.step fmt args) Dopr.isDone (8 * fmt.chars.length + 8) (Dopr.start fmt s)).bind
    fun x => if x.isDone then some x.sink.finish else none

/-- `pth_vsnprintf`; the length is returned as an `int`. -/
def vsnprintf (str : Option (ℕ → Char)) (count : ℕ) (fmt : CString) (args : ℕ → Arg) :
    Option (ℤ × Sink) :=
  (dopr (Sink.store { buffer := str, maxlen := count } 0 '\x00') fmt args).map fun r =>
    ((BitVec.ofNat 32 r.1).toInt, r.2)

/-- The characters that `dopr` passes to `dopr_outch`, if nothing is stored. -/
def emission (fmt : CString) (args : ℕ → Arg) : Option (List Char) :=
  (dopr { buffer := none, maxlen := 2 ^ 64 - 1 } fmt args).map fun r => r.2.emitted

/-! ## One run for all sinks -/

namespace Dopr

variable {fmt : CString} {args : ℕ → Arg} {x y : Dopr} {c : Char} {cs : List Char}
variable {f g : Dopr → Option Dopr}

/-- On any sink with the count of `x`, `f` makes the same move and puts out `cs`. -/
def Emits (f : Dopr → Option Dopr) (x : Dopr) (cs : List Char) : Prop :=
  ∀ s : Sink, s.currlen = x.sink.currlen →
    f { x with sink := s } = (f x).map fun y => { y with sink := s.emit cs }

theorem Emits.sink (h : Emits f x cs) (hf : f x = some y) : y.sink = x.sink.emit cs := by
  have hx : f x = (f x).map fun y => { y with sink := x.sink.emit cs } := h x.sink rfl
  rw [hf, Option.map_some, Option.some_inj] at hx
  exact congrArg Dopr.sink hx

theorem Emits.of_eq (h : Emits f x cs)
    (heq : ∀ s, g { x with sink := s } = f { x with sink := s }) : Emits g x cs := by
  intro s hs
  have hx : g x = f x := heq x.sink
  rw [heq, hx]
  exact h s hs

theorem Emits.bind (hf : Emits f x cs) (hg : ∀ y, f x = some y → ∃ cs', Emits g y cs') :
    ∃ cs', Emits (fun x => (f x).bind g) x cs' := by
  cases hx : f x with
  | none => exact ⟨[], fun s hs => by simp [hf s hs, hx]⟩
  | some y =>
    obtain ⟨cs', hg⟩ := hg y hx
    refine ⟨cs ++ cs', fun s hs => ?_⟩
    have hcount : (s.emit cs).currlen = y.sink.currlen := by
      rw [hf.sink hx, Sink.currlen_emit, Sink.currlen_emit, hs]
    simp only [hf s hs, hx, Option.map_some, Option.bind_some, Sink.emit_append]
    exact hg _ hcount

theorem emits_some {g : Dopr → Dopr} (hg : ∀ s : Sink, s.currlen = x.sink.currlen →
    g { x with sink := s } = { g x with sink := s.emit cs }) : Emits (fun x => some (g x)) x cs :=
  fun s hs => congrArg some (hg s hs)

theorem emits_fetch {g : Dopr → Dopr} (hg : ∀ s : Sink, s.currlen = x.sink.currlen →
    g { x with sink := s } = { g x with sink := s.emit cs }) :
    Emits (fun x => (g x).fetch fmt) x cs := by
  intro s hs
  simp only [hg s hs, fetch, Option.map_map]
  rfl

/-- A test that does not look at the sink. -/
theorem emits_ite {p : Dopr → Prop} [DecidablePred p]
    (hp : ∀ s, p { x with sink := s } ↔ p x) (hf : ∃ cs, Emits f x cs) (hg : ∃ cs, Emits g x cs) :
    ∃ cs, Emits (fun x => if p x then f x else g x) x cs := by
  by_cases hx : p x
  · obtain ⟨cs, h⟩ := hf
    exact ⟨cs, h.of_eq fun s => if_pos ((hp s).mpr hx)⟩
  · obtain ⟨cs, h⟩ := hg
    exact ⟨cs, h.of_eq fun s => if_neg (mt (hp s).mp hx)⟩

theorem stepDefault_emits (fmt : CString) (x : Dopr) : ∃ cs, Emits (stepDefault fmt) x cs :=
  emits_ite (fun _ => Iff.rfl) ⟨[], emits_fetch fun _ _ => rfl⟩
    ⟨[x.ch], emits_fetch fun _ _ => rfl⟩

theorem stepFlags_emits (fmt : CString) (c : Char) (x : Dopr) :
    ∃ cs, Emits (stepFlags fmt c) x cs := by
  refine ⟨[], ?_⟩
  fun_cases stepFlags fmt c
  case case6 => exact emits_some fun _ _ => rfl
  all_goals exact emits_fetch fun _ _ => rfl

theorem stepMin_emits (fmt : CString) (args : ℕ → Arg) (x : Dopr) :
    ∃ cs, Emits (stepMin fmt args) x cs :=
  emits_ite (fun _ => Iff.rfl) ⟨[], emits_fetch fun _ _ => rfl⟩ <|
    emits_ite (fun _ => Iff.rfl) ⟨[], emits_fetch fun _ _ => rfl⟩ ⟨[], emits_some fun _ _ => rfl⟩

theorem stepDot_emits (fmt : CString) (x : Dopr) : ∃ cs, Emits (stepDot fmt) x cs :=
  emits_ite (fun _ => Iff.rfl) ⟨[], emits_fetch fun _ _ => rfl⟩ ⟨[], emits_some fun _ _ => rfl⟩

theorem stepMax_emits (fmt : CString) (args : ℕ → Arg) (x : Dopr) :
    ∃ cs, Emits (stepMax fmt args) x cs :=
  emits_ite (fun _ => Iff.rfl) ⟨[], emits_fetch fun _ _ => rfl⟩ <|
    emits_ite (fun _ => Iff.rfl) ⟨[], emits_fetch fun _ _ => rfl⟩ ⟨[], emits_some fun _ _ => rfl⟩

theorem stepMod_emits (fmt : CString) (c : Char) (x : Dopr) :
    ∃ cs, Emits (stepMod fmt c) x cs := by
  fun_cases stepMod fmt c
  case case2 =>
    cases hnext : fmt.mem[x.format]? with
    | none => exact ⟨[], fun s hs => by simp [hnext]⟩
    | some d =>
      have hite : ∃ cs, Emits (fun x => if d = 'l' then
          fetch fmt { x with cflags := .llong, format := x.format + 1, state := .conv }
          else fetch fmt { x with cflags := .long, state := .conv }) x cs :=
        emits_ite (fun _ => Iff.rfl) ⟨[], emits_fetch fun _ _ => rfl⟩
          ⟨[], emits_fetch fun _ _ => rfl⟩
      obtain ⟨cs, h⟩ := hite
      exact ⟨cs, h.of_eq fun s => by simp [hnext]⟩
  case case5 => exact ⟨[], emits_some fun _ _ => rfl⟩
  all_goals exact ⟨[], emits_fetch fun _ _ => rfl⟩

/-- Every conversion puts out the same characters on any sink. -/
theorem convert_emits (fmt : CString) (args : ℕ → Arg) (c : Char) (x : Dopr) :
    ∃ cs, Emits (convert fmt args c) x cs := by
  have hint (value : Dopr → BitVec 64) (base : ℕ) (flags : Dopr → FmtFlags)
      (hvalue : ∀ s, value { x with sink := s } = value x)
      (hflags : ∀ s, flags { x with sink := s } = flags x) :
      ∃ cs, Emits (fun x => some (x.putInt (value x) base (flags x))) x cs := by
    refine ⟨Sink.intField (flags x) base x.min x.max (value x), emits_some fun s hs => ?_⟩
    simp [putInt, take, Sink.fmtint_eq, hvalue, hflags]
  -- the cases are the characters of the switch in their order, from `d` and `i` to the default
  fun_cases convert fmt args c
  case case7 =>
    exact ⟨(args x.args).fp x.cflags x.min x.max x.flags, emits_some fun _ _ => rfl⟩
  case case8 | case9 | case10 | case11 => exact ⟨[], emits_some fun _ _ => rfl⟩
  case case12 =>
    exact ⟨[Char.ofNat ((args x.args).word.toNat % 256)], emits_some fun _ _ => rfl⟩
  case case13 =>
    refine ⟨Sink.strField (args x.args).str x.flags x.min
      (if x.max < 0 then 2 ^ 31 - 1 else x.max), emits_some fun s _ => ?_⟩
    simp [take, Sink.fmtstr_eq]
  case case15 =>
    -- `%n` stores the count, which is the same for all of these sinks
    refine ⟨[], emits_some fun s hs => ?_⟩
    simp [take, hs]
  case case16 => exact ⟨['%'], emits_some fun _ _ => rfl⟩
  case case17 => exact ⟨[], emits_fetch fun _ _ => rfl⟩
  case case18 => exact ⟨[], emits_some fun _ _ => rfl⟩
  all_goals exact hint _ _ _ (fun _ => rfl) fun _ => rfl

theorem stepConv_emits (fmt : CString) (args : ℕ → Arg) (x : Dopr) :
    ∃ cs, Emits (stepConv fmt args) x cs := by
  obtain ⟨cs, hconvert⟩ := convert_emits fmt args x.ch x
  obtain ⟨cs', h⟩ := hconvert.bind (g := fun x => x.reset.fetch fmt) fun y _ =>
    ⟨[], emits_fetch fun _ _ => rfl⟩
  exact ⟨cs', h.of_eq fun s => rfl⟩

/-- A round puts out the same characters on any sink. -/
theorem step_emits (fmt : CString) (args : ℕ → Arg) (x : Dopr) :
    ∃ cs, Emits (step fmt args) x cs := by
  refine emits_ite (fun _ => Iff.rfl) ⟨[], emits_some fun _ _ => rfl⟩ ?_
  cases hstate : x.state with
  | default => exact (stepDefault_emits fmt x).imp fun _ h => h.of_eq fun s => by simp [hstate]
  | flags => exact (stepFlags_emits fmt x.ch x).imp fun _ h => h.of_eq fun s => by simp [hstate]
  | min => exact (stepMin_emits fmt args x).imp fun _ h => h.of_eq fun s => by simp [hstate]
  | dot => exact (stepDot_emits fmt x).imp fun _ h => h.of_eq fun s => by simp [hstate]
  | max => exact (stepMax_emits fmt args x).imp fun _ h => h.of_eq fun s => by simp [hstate]
  | mod => exact (stepMod_emits fmt x.ch x).imp fun _ h => h.of_eq fun s => by simp [hstate]
  | conv => exact (stepConv_emits fmt args x).imp fun _ h => h.of_eq fun s => by simp [hstate]
  | done =>
    have h : Emits (fun x => some x) x [] := emits_some fun _ _ => rfl
    exact ⟨[], h.of_eq fun s => by simp [hstate]⟩

/-- So does a run. -/
theorem run_emits (fmt : CString) (args : ℕ → Arg) (n : ℕ) (x : Dopr) :
    ∃ cs, Emits (While.run (step fmt args) isDone n) x cs := by
  induction n generalizing x with
  | zero => exact ⟨[], emits_some fun _ _ => rfl⟩
  | succ n ih =>
    obtain ⟨cs, hstep⟩ := step_emits fmt args x
    exact emits_ite (fun _ => Iff.rfl) ⟨[], emits_some fun _ _ => rfl⟩
      (hstep.bind fun y _ => ih y)

end Dopr

/-! ## What a sink keeps -/

namespace Sink

variable {s : Sink} {b : ℕ → Char}

theorem store_null (hs : s.buffer = none) (i : ℕ) (c : Char) : s.store i c = s := by
  simp [store, hs]

/-- Nothing is stored through a `NULL` buffer. -/
theorem emit_null (hs : s.buffer = none) (cs : List Char) :
    (s.emit cs).buffer = none ∧ (s.emit cs).written = s.written ∧
      (s.emit cs).maxlen = s.maxlen := by
  induction cs generalizing s with
  | nil => exact ⟨hs, rfl, rfl⟩
  | cons c cs ih =>
    have hput : s.doprOutch c =
        { s with currlen := s.currlen + 1, emitted := s.emitted ++ [c] } := by
      simp [doprOutch, store_null hs]
    rw [emit_cons, hput]
    exact ih hs

/-- A buffer of `size` characters that held `b` at first and holds `b'` now: nothing outside of
    it was touched. -/
structure Kept (b : ℕ → Char) (size : ℕ) (s : Sink) (b' : ℕ → Char) : Prop where
  buffer : s.buffer = some b'
  maxlen : s.maxlen = size
  outside : ∀ i, size ≤ i → b' i = b i
  written_lt : ∀ i ∈ s.written, i < size

/-- The characters that were put out stand in the buffer, as far as there is room. -/
structure Filled (b : ℕ → Char) (size : ℕ) (s : Sink) (b' : ℕ → Char) : Prop
    extends Kept b size s b' where
  count : s.currlen = s.emitted.length
  cells : ∀ i < size, ∀ c, s.emitted[i]? = some c → b' i = c

variable {b' : ℕ → Char} {size : ℕ}

theorem Kept.store (h : Kept b size s b') {i : ℕ} (hi : i < size) (c : Char) :
    Kept b size (s.store i c) (Function.update b' i c) := by
  have hstore : s.store i c =
      { s with buffer := some (Function.update b' i c), written := s.written ++ [i] } := by
    simp [Sink.store, h.buffer]
  rw [hstore]
  refine ⟨rfl, h.maxlen, fun j hj => ?_, fun j hj => ?_⟩
  · rw [Function.update_of_ne (by omega)]
    exact h.outside j hj
  · rcases List.mem_append.mp hj with hj | hj
    · exact h.written_lt j hj
    · obtain rfl := List.mem_singleton.mp hj
      exact hi

theorem Filled.doprOutch (h : Filled b size s b') (c : Char) :
    ∃ b'', Filled b size (s.doprOutch c) b'' := by
  have hcount : (s.doprOutch c).currlen = (s.doprOutch c).emitted.length := by simp [h.count]
  unfold Sink.doprOutch at hcount ⊢
  by_cases hroom : s.currlen < s.maxlen
  · have hkept := h.toKept.store (h.maxlen ▸ hroom) c
    simp only [if_pos hroom] at hcount ⊢
    refine ⟨_, ⟨hkept.buffer, hkept.maxlen, hkept.outside, hkept.written_lt⟩, hcount, ?_⟩
    intro i hi d hd
    rw [emitted_store, List.getElem?_append] at hd
    split at hd
    · rw [Function.update_of_ne (by have := h.count; omega)]
      exact h.cells i hi d hd
    · obtain ⟨hsub, rfl⟩ : i - s.emitted.length = 0 ∧ c = d := by
        simpa [List.getElem?_singleton] using hd
      have hi' : i = s.currlen := by
        have := h.count
        omega
      rw [hi', Function.update_self]
  · simp only [if_neg hroom] at hcount ⊢
    refine ⟨b', ⟨h.buffer, h.maxlen, h.outside, h.written_lt⟩, hcount, ?_⟩
    intro i hi d hd
    rw [List.getElem?_append_left (by have := h.count; have := h.maxlen; omega)] at hd
    exact h.cells i hi d hd

theorem Filled.emit (h : Filled b size s b') (cs : List Char) :
    ∃ b'', Filled b size (s.emit cs) b'' := by
  induction cs generalizing s b' with
  | nil => exact ⟨b', h⟩
  | cons c cs ih =>
    obtain ⟨b'', h'⟩ := h.doprOutch c
    exact ih h'

/-- The end of `dopr` on a buffer of its size: as much of the text as leaves room for the NUL. -/
theorem Filled.finish (h : Filled b size s b') (hpos : 1 ≤ size) (hsize : size < 2 ^ 64) :
    let m := min s.emitted.length (size - 1)
    s.finish.1 = m ∧ ∃ b'', Kept b size s.finish.2 b'' ∧
      (List.range m).map b'' = s.emitted.take m ∧ b'' m = '\x00' := by
  intro m
  have hlast : (s.maxlen + (2 ^ 64 - 1)) % 2 ^ 64 = size - 1 := by
    rw [h.maxlen]
    omega
  have hcurrlen : (if size - 1 ≤ s.currlen then size - 1 else s.currlen) = m := by
    rw [h.count]
    simp only [m]
    split <;> omega
  have hm : m < size := by omega
  have hkept : Kept b size { s with currlen := m } b' :=
    ⟨h.buffer, h.maxlen, h.outside, h.written_lt⟩
  have hfinish : s.finish = (m, { s with currlen := m }.store m '\x00') := by
    simp only [Sink.finish, hlast, hcurrlen]
  rw [hfinish]
  refine ⟨rfl, Function.update b' m '\x00', hkept.store hm _, ?_, Function.update_self ..⟩
  refine List.ext_getElem (by simp [m]) fun i hi hi' => ?_
  have hi : i < m := by simpa using hi
  have hcell : b' i = s.emitted[i] := h.cells i (by omega) _ (List.getElem?_eq_getElem _)
  rw [List.getElem_map, List.getElem_range, Function.update_of_ne (by omega), hcell,
    List.getElem_take]

theorem emitted_finish : s.finish.2.emitted = s.emitted := by
  simp [finish]

/-- The end of `dopr` without a buffer, if the count stays below the size. -/
theorem finish_null (hs : s.buffer = none) (hcount : s.currlen < s.maxlen - 1)
    (hmaxlen : s.maxlen < 2 ^ 64) : s.finish = (s.currlen, s) := by
  have hlast : (s.maxlen + (2 ^ 64 - 1)) % 2 ^ 64 = s.maxlen - 1 := by omega
  simp only [finish, hlast, if_neg (Nat.not_le.mpr hcount)]
  rw [store_null hs]

end Sink

/-! ## `pth_vsnprintf` -/

variable {fmt : CString} {args : ℕ → Arg}

/-- `dopr` puts the same text out on every sink that has counted nothing yet. -/
theorem dopr_emits (args : ℕ → Arg) (hfmt : ('w', []) ∉ Dopr.directives fmt.chars) :
    ∃ R, ∀ s : Sink, s.currlen = 0 → dopr s fmt args = some (s.emit R).finish := by
  let n := 8 * fmt.chars.length + 8
  obtain ⟨R, hrun⟩ := Dopr.run_emits fmt args n (Dopr.start fmt { buffer := none, maxlen := 0 })
  have hstart := Dopr.start_at fmt { buffer := none, maxlen := 0 }
  obtain ⟨x, hx, hdone⟩ := (Dopr.judged fmt args).run_stops (n := n) ⟨_, hstart⟩
    (by rwa [hstart.ahead]) (by rw [hstart.ahead]; simp [n, Dopr.rounds, Dopr.start, Dopr.number])
  refine ⟨R, fun s hs => ?_⟩
  have hs' : While.run (Dopr.step fmt args) Dopr.isDone n (Dopr.start fmt s) =
      some { x with sink := s.emit R } := by
    have h := hrun s hs
    rwa [hx] at h
  have hdone' : Dopr.isDone { x with sink := s.emit R } := hdone
  rw [dopr, hs', Option.bind_some, if_pos hdone']

theorem vsnprintf_eq {m : ℕ} {s : Sink} {str : Option (ℕ → Char)} {count : ℕ}
    (hdopr : dopr (Sink.store { buffer := str, maxlen := count } 0 '\x00') fmt args = some (m, s))
    (hm : m < 2 ^ 31) : vsnprintf str count fmt args = some ((m : ℤ), s) := by
  have hint : (BitVec.ofNat 32 m).toInt = m := by
    rw [BitVec.toInt_eq_toNat_cond, BitVec.toNat_ofNat, Nat.mod_eq_of_lt (by omega),
      if_pos (by omega)]
  rw [vsnprintf, hdopr, Option.map_some, hint]

section

variable {R : List Char}
  (hdopr : ∀ s : Sink, s.currlen = 0 → dopr s fmt args = some (s.emit R).finish)
  (hR : R.length < 2 ^ 31)

include hdopr hR

/-- A call on a buffer of `count` characters, for a text that `dopr` puts out on every sink. -/
theorem vsnprintf_buffer (str : ℕ → Char) (count : ℕ) (hpos : 1 ≤ count)
    (hcount : count < 2 ^ 64) :
    let m := min R.length (count - 1)
    ∃ s b, vsnprintf (some str) count fmt args = some ((m : ℤ), s) ∧ s.emitted = R ∧
      Sink.Kept str count s b ∧ (List.range m).map b = R.take m ∧ b m = '\x00' := by
  intro m
  let s₀ : Sink := Sink.store { buffer := some str, maxlen := count } 0 '\x00'
  -- the first character is set to NUL before `dopr` is called
  have hinit : Sink.Filled str count s₀ (Function.update str 0 '\x00') := by
    have hkept : Sink.Kept str count { buffer := some str, maxlen := count } str :=
      ⟨rfl, rfl, fun _ _ => rfl, by simp⟩
    exact ⟨hkept.store (by omega) _, by simp [s₀], by simp [s₀]⟩
  obtain ⟨b', hfilled⟩ := hinit.emit R
  have hemitted : (s₀.emit R).emitted = R := by simp [Sink.emitted_emit, s₀]
  obtain ⟨hret, b, hkept, htext, hnul⟩ := hfilled.finish hpos hcount
  rw [hemitted] at hret htext hnul
  have hrun : dopr s₀ fmt args = some (m, (s₀.emit R).finish.2) := by
    rw [hdopr s₀ (by simp [s₀])]
    exact congrArg some (Prod.ext hret rfl)
  exact ⟨_, b, vsnprintf_eq hrun (by omega), Sink.emitted_finish.trans hemitted, hkept, htext, hnul⟩

/-- A call without a buffer. -/
theorem vsnprintf_null :
    ∃ s, vsnprintf none (2 ^ 64 - 1) fmt args = some ((R.length : ℤ), s) ∧ s.emitted = R ∧
      s.buffer = none ∧ s.written = [] := by
  let s₀ : Sink := { buffer := none, maxlen := 2 ^ 64 - 1 }
  obtain ⟨hbuffer, hwritten, hmaxlen⟩ := Sink.emit_null (s := s₀) rfl R
  have hcurrlen : (s₀.emit R).currlen = R.length := by simp [Sink.currlen_emit, s₀]
  have hmaxlen : (s₀.emit R).maxlen = 2 ^ 64 - 1 := hmaxlen
  have hrun : dopr s₀ fmt args = some (R.length, s₀.emit R) := by
    rw [hdopr s₀ rfl, Sink.finish_null hbuffer (by omega) (by omega), hcurrlen]
  refine ⟨s₀.emit R, vsnprintf_eq hrun hR, ?_, hbuffer, hwritten⟩
  simp [Sink.emitted_emit, s₀]

end

/-- For a format without `%w`: what `pth_vsnprintf` stores is the beginning of the text `R` that
    `dopr` puts out, as much of it as leaves room for the NUL, and it returns how much that is.
    Without a buffer it returns the length of `R`, and a buffer of that size and one takes all
    of it. -/
theorem vsnprintf_stores_beginning (fmt : CString) (args : ℕ → Arg)
    (hw : ∀ d ∈ Dopr.directives fmt.chars, d.1 ≠ 'w') :
    ∃ R, emission fmt args = some R ∧ (R.length < 2 ^ 31 →
      (∀ (str : ℕ → Char) (count : ℕ), 1 ≤ count → count < 2 ^ 64 →
        let m := min R.length (count - 1)
        ∃ s b, vsnprintf (some str) count fmt args = some ((m : ℤ), s) ∧ s.emitted = R ∧
          Sink.Kept str count s b ∧ (List.range m).map b = R.take m ∧ b m = '\x00') ∧
      (∃ s, vsnprintf none (2 ^ 64 - 1) fmt args = some ((R.length : ℤ), s) ∧ s.emitted = R ∧
        s.buffer = none ∧ s.written = []) ∧
      ∀ str : ℕ → Char, ∃ s b,
        vsnprintf (some str) (R.length + 1) fmt args = some ((R.length : ℤ), s) ∧
          Sink.Kept str (R.length + 1) s b ∧ (List.range R.length).map b = R ∧
          b R.length = '\x00') := by
  obtain ⟨R, hdopr⟩ := dopr_emits args fun hmem => hw _ hmem rfl
  have hemission : emission fmt args = some R := by
    rw [emission, hdopr _ rfl, Option.map_some, Sink.emitted_finish, Sink.emitted_emit]
    rfl
  refine ⟨R, hemission, fun hR => ⟨?_, vsnprintf_null hdopr hR, fun str => ?_⟩⟩
  · exact vsnprintf_buffer hdopr hR
  · obtain ⟨s, b, hret, -, hkept, htext, hnul⟩ :=
      vsnprintf_buffer hdopr hR str (R.length + 1) (by omega) (by omega)
    simp only [Nat.add_sub_cancel, Nat.min_self, List.take_length] at hret htext hnul
    exact ⟨s, b, hret, hkept, htext, hnul⟩

/-- `n=%d` of 42 in a buffer of four characters. -/
theorem vsnprintf_stores_three : ∃ s b,
    vsnprintf (some fun _ => 'x') 4 ⟨"n=%d".toList, by decide⟩
        (fun _ => ⟨42, none, fun _ _ _ _ => []⟩) = some (3, s) ∧
      s.buffer = some b ∧ (List.range 3).map b = "n=4".toList ∧ b 3 = '\x00' := by
  have hw : ∀ d ∈ Dopr.directives "n=%d".toList, d.1 ≠ 'w' := by
    have htext : Dopr.conversionText ['d'] = ['d'] := by decide
    simp [Dopr.directives_cons, Dopr.directives_percent, htext, Dopr.directivesFrom,
      Dopr.directives]
  have hemission : emission ⟨"n=%d".toList, by decide⟩ (fun _ => ⟨42, none, fun _ _ _ _ => []⟩) =
      some "n=42".toList := by decide +kernel
  obtain ⟨R, hR, h⟩ := vsnprintf_stores_beginning ⟨"n=%d".toList, by decide⟩
    (fun _ => ⟨42, none, fun _ _ _ _ => []⟩) hw
  obtain rfl : "n=42".toList = R := Option.some.inj (hemission.symm.trans hR)
  obtain ⟨s, b, hret, -, hkept, htext, hnul⟩ := (h (by decide)).1 (fun _ => 'x') 4 (by decide)
    (by decide)
  exact ⟨s, b, hret, hkept.buffer, htext, hnul⟩

end Pth
