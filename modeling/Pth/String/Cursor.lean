-- SUMMARY: How far `dopr` reads a format string, and why its loop ends.
import Pth.Lib.While
import Pth.String.Dopr

/-!
# The cursor of `dopr`

The text of a format is taken apart into directives. A directive may break off anywhere, and
the loop then finds the NUL in `ch`. The exception is `%w`, which fetches a character without
a look at it: at the end of a format this is the NUL, and the next fetch is behind it. -/

namespace Pth

namespace Dopr

/-! ## Directives -/

/-- A flag of a directive. -/
def isFlag (c : Char) : Bool := c ∈ ['-', '+', ' ', '#', '0']

/-- What follows a number, or an asterisk for one. -/
def skipNumber (l : List Char) : List Char :=
  let r := l.dropWhile Char.isDigit
  if r.head? = some '*' then r.tail else r

def skipPrecision (l : List Char) : List Char :=
  if l.head? = some '.' then skipNumber l.tail else l

def skipModifier : List Char → List Char
  | [] => []
  | c :: l =>
    if c = 'l' then (if l.head? = some 'l' then l.tail else l)
    else if c = 'h' ∨ c = 'q' ∨ c = 'L' then l
    else c :: l

/-- The text of a directive from its conversion character on. -/
def conversionText (l : List Char) : List Char :=
  skipModifier (skipPrecision (skipNumber (l.dropWhile isFlag)))

theorem skipNumber_suffix (l : List Char) : skipNumber l <:+ l := by
  have hdrop : l.dropWhile Char.isDigit <:+ l := List.dropWhile_suffix _
  simp only [skipNumber]
  split
  · exact (List.tail_suffix _).trans hdrop
  · exact hdrop

theorem skipPrecision_suffix (l : List Char) : skipPrecision l <:+ l := by
  unfold skipPrecision
  split
  · exact (skipNumber_suffix _).trans (List.tail_suffix l)
  · exact List.suffix_rfl

theorem skipModifier_suffix (l : List Char) : skipModifier l <:+ l := by
  cases l with
  | nil => exact List.suffix_rfl
  | cons c l =>
    have hl : l <:+ c :: l := List.suffix_cons c l
    rw [skipModifier]
    split_ifs
    · exact (List.tail_suffix l).trans hl
    · exact hl
    · exact hl
    · exact List.suffix_rfl

theorem conversionText_suffix (l : List Char) : conversionText l <:+ l :=
  (skipModifier_suffix _).trans <| (skipPrecision_suffix _).trans <|
    (skipNumber_suffix _).trans (List.dropWhile_suffix _)

theorem length_lt_of_conversionText {l r : List Char} {k : Char}
    (h : conversionText l = k :: r) : r.length < l.length := by
  have hle := (conversionText_suffix l).length_le
  rwa [h, List.length_cons] at hle

/-- The directives of a format: the conversion character of each with the text behind it. The
    conversion `w` takes one more character. -/
def directives (l : List Char) : List (Char × List Char) :=
  match l with
  | [] => []
  | c :: l =>
    if c = '%' then
      match h : conversionText l with
      | [] => []
      | k :: r =>
        have := length_lt_of_conversionText h
        (k, r) :: directives (if k = 'w' then r.tail else r)
    else directives l
termination_by l.length
decreasing_by
  · split <;> simp only [List.length_cons, List.length_tail] <;> omega
  · simp

/-- The directives of a format that has been read up to a conversion character. -/
def directivesFrom : List Char → List (Char × List Char)
  | [] => []
  | k :: r => (k, r) :: directives (if k = 'w' then r.tail else r)

theorem directives_percent (l : List Char) :
    directives ('%' :: l) = directivesFrom (conversionText l) := by
  rw [directives, if_pos rfl]
  split
  · next hnil => rw [hnil, directivesFrom]
  · next k r hcons => simp only [hcons, directivesFrom]

theorem directives_cons {c : Char} (hc : c ≠ '%') (l : List Char) :
    directives (c :: l) = directives l := by
  rw [directives, if_neg hc]

/-! ## The cursor -/

/-- The text that is left, with the character in `ch` as its first one. -/
def ahead (fmt : CString) (x : Dopr) : List Char := fmt.chars.drop (x.format - 1)

/-- The character in `ch` is the first one of `l`, or the NUL if nothing is left. -/
structure At (fmt : CString) (x : Dopr) (l : List Char) : Prop where
  text : ∃ done, fmt.chars = done ++ l ∧ x.format = done.length + 1
  ch : x.ch = l.headD '\x00'

variable {fmt : CString} {args : ℕ → Arg} {x y : Dopr} {c : Char} {l : List Char}

theorem At.ahead (h : At fmt x l) : x.ahead fmt = l := by
  obtain ⟨done, htext, hformat⟩ := h.text
  simp [Dopr.ahead, htext, hformat]

/-- The character behind the one in `ch`. -/
theorem At.next (h : At fmt x (c :: l)) : fmt.mem[x.format]? = some (l.headD '\x00') := by
  obtain ⟨done, htext, hformat⟩ := h.text
  rw [CString.mem, htext, hformat, List.append_assoc, List.getElem?_append_right (by omega)]
  cases l <;> simp

theorem At.fetch (h : At fmt x (c :: l)) (hy : y.format = x.format) :
    let z := { y with ch := l.headD '\x00', format := y.format + 1 }
    y.fetch fmt = some z ∧ At fmt z l := by
  obtain ⟨done, htext, hformat⟩ := h.text
  refine ⟨by rw [Dopr.fetch, hy, h.next, Option.map_some], ⟨done ++ [c], ?_, ?_⟩, rfl⟩
  · simp [htext]
  · simp [hy, hformat]

/-- Behind the NUL there is nothing to fetch. -/
theorem At.fetch_nil (h : At fmt x []) (hy : y.format = x.format) : y.fetch fmt = none := by
  obtain ⟨done, htext, hformat⟩ := h.text
  simp [Dopr.fetch, hy, hformat, CString.mem, htext]

/-- From the state and the text that is left: no directive `%w` stands at the very end. -/
def Safe : DoprState → List Char → Prop
  | .default, l => ('w', []) ∉ directives l
  | .flags, l => ('w', []) ∉ directivesFrom (conversionText l)
  | .min, l => ('w', []) ∉ directivesFrom (skipModifier (skipPrecision (skipNumber l)))
  | .dot, l => ('w', []) ∉ directivesFrom (skipModifier (skipPrecision l))
  | .max, l => ('w', []) ∉ directivesFrom (skipModifier (skipNumber l))
  | .mod, l => ('w', []) ∉ directivesFrom (skipModifier l)
  | .conv, l => ('w', []) ∉ directivesFrom l
  | .done, _ => True

theorem safe_nil (state : DoprState) : Safe state [] := by
  cases state <;>
    simp [Safe, directives, directivesFrom, conversionText, skipModifier, skipPrecision, skipNumber]

/-- The number of a state, as the source has it. -/
def number : DoprState → ℕ
  | .default => 0
  | .flags => 1
  | .min => 2
  | .dot => 3
  | .max => 4
  | .mod => 5
  | .conv => 6
  | .done => 7

/-- A bound on the rounds that are left: a round without a fetch goes on to a later state. -/
def rounds (state : DoprState) (l : List Char) : ℕ := 8 * l.length + (7 - number state)

/-- A round from `state` with the text `l` keeps the verdict and lowers the bound, or it faults
    where the verdict is negative. -/
def Keeps (fmt : CString) (state : DoprState) (l : List Char) (o : Option Dopr) : Prop :=
  match o with
  | none => ¬ Safe state l
  | some y =>
    ∃ l', At fmt y l' ∧ rounds y.state l' < rounds state l ∧ (Safe y.state l' ↔ Safe state l)

variable {state : DoprState} {l' : List Char}

theorem At.keeps (h : At fmt x l) (hformat : y.format = x.format) (hch : y.ch = x.ch)
    (hlt : number state < number y.state) (hsafe : Safe y.state l ↔ Safe state l) :
    Keeps fmt state l (some y) := by
  have hle : number y.state ≤ 7 := by cases y.state <;> decide
  refine ⟨l, ⟨by simpa [hformat] using h.text, hch.trans h.ch⟩, ?_, hsafe⟩
  simp only [rounds]
  omega

theorem At.keeps_fetch (h : At fmt x (c :: l')) (hformat : y.format = x.format)
    (hlt : l'.length < l.length) (hsafe : Safe y.state l' ↔ Safe state l) :
    Keeps fmt state l (y.fetch fmt) := by
  obtain ⟨hfetch, hat⟩ := h.fetch hformat
  rw [hfetch]
  refine ⟨l', hat, ?_, hsafe⟩
  simp only [rounds]
  omega

theorem At.keeps_fetch_nil (h : At fmt x []) (hformat : y.format = x.format)
    (hsafe : ¬ Safe state l) : Keeps fmt state l (y.fetch fmt) := by
  rw [h.fetch_nil hformat]
  exact hsafe

theorem stepDefault_keeps (h : At fmt x (c :: l)) (hstate : x.state = .default) :
    Keeps fmt .default (c :: l) (x.stepDefault fmt) := by
  have hch : x.ch = c := h.ch
  unfold stepDefault
  split
  · next hpercent =>
    obtain rfl : c = '%' := hch.symm.trans hpercent
    exact h.keeps_fetch rfl (by simp) (by rw [Safe, Safe, directives_percent])
  · next hpercent =>
    refine h.keeps_fetch rfl (by simp) ?_
    rw [hstate, Safe, Safe, directives_cons (hch ▸ hpercent)]

theorem stepFlags_keeps (h : At fmt x (c :: l)) (hstate : x.state = .flags) :
    Keeps fmt .flags (c :: l) (stepFlags fmt c x) := by
  have hflag (hc : isFlag c) : Safe x.state l ↔ Safe .flags (c :: l) := by
    rw [hstate, Safe, Safe, conversionText, conversionText, List.dropWhile_cons_of_pos hc]
  fun_cases stepFlags fmt c
  case case6 h₁ h₂ h₃ h₄ h₅ =>
    have hc : ¬ isFlag c := by simpa [isFlag] using ⟨h₁, h₂, h₃, h₄, h₅⟩
    refine h.keeps rfl rfl (by simp [number]) ?_
    rw [Safe, Safe, conversionText, List.dropWhile_cons_of_neg hc]
  all_goals exact h.keeps_fetch rfl (by simp) (hflag rfl)

theorem skipNumber_digit (hc : c.isDigit) (l : List Char) : skipNumber (c :: l) = skipNumber l := by
  rw [skipNumber, skipNumber, List.dropWhile_cons_of_pos hc]

theorem skipNumber_star (l : List Char) : skipNumber ('*' :: l) = l := by
  rw [skipNumber, List.dropWhile_cons_of_neg (by decide)]
  rfl

theorem skipNumber_of_ne (hdigit : ¬ c.isDigit) (hstar : c ≠ '*') (l : List Char) :
    skipNumber (c :: l) = c :: l := by
  rw [skipNumber, List.dropWhile_cons_of_neg hdigit]
  simp [hstar]

/-- A round at a number, in either of the two states that read one. -/
theorem At.keeps_number {y₁ y₂ y₃ : Dopr} {state' : DoprState} (h : At fmt x (c :: l))
    (h₁ : y₁.format = x.format ∧ y₁.state = state) (h₂ : y₂.format = x.format ∧ y₂.state = state')
    (h₃ : y₃.format = x.format ∧ y₃.ch = x.ch ∧ y₃.state = state')
    (hlt : number state < number state')
    (hsafe : ∀ l, Safe state l ↔ Safe state' (skipNumber l)) :
    Keeps fmt state (c :: l)
      (if x.ch.isDigit then y₁.fetch fmt else if x.ch = '*' then y₂.fetch fmt else some y₃) := by
  obtain rfl : x.ch = c := h.ch
  split
  · next hdigit =>
    refine h.keeps_fetch h₁.1 (by simp) ?_
    rw [h₁.2, hsafe, hsafe, skipNumber_digit hdigit]
  · next hdigit =>
    split
    · next hstar =>
      refine h.keeps_fetch h₂.1 (by simp) ?_
      rw [h₂.2, hsafe, hstar, skipNumber_star]
    · next hstar =>
      refine h.keeps h₃.1 h₃.2.1 (by rwa [h₃.2.2]) ?_
      rw [h₃.2.2, hsafe, skipNumber_of_ne hdigit hstar]

theorem stepMin_keeps (h : At fmt x (c :: l)) (hstate : x.state = .min) :
    Keeps fmt .min (c :: l) (x.stepMin fmt args) :=
  h.keeps_number ⟨rfl, hstate⟩ ⟨rfl, rfl⟩ ⟨rfl, rfl, rfl⟩ (by simp [number]) fun _ => Iff.rfl

theorem stepDot_keeps (h : At fmt x (c :: l)) :
    Keeps fmt .dot (c :: l) (x.stepDot fmt) := by
  obtain rfl : x.ch = c := h.ch
  unfold stepDot
  split
  · next hdot =>
    refine h.keeps_fetch rfl (by simp) ?_
    simp [Safe, skipPrecision, hdot]
  · next hdot =>
    refine h.keeps rfl rfl (by simp [number]) ?_
    simp [Safe, skipPrecision, hdot]

theorem stepMax_keeps (h : At fmt x (c :: l)) (hstate : x.state = .max) :
    Keeps fmt .max (c :: l) (x.stepMax fmt args) :=
  h.keeps_number ⟨rfl, hstate⟩ ⟨rfl, rfl⟩ ⟨rfl, rfl, rfl⟩ (by simp [number]) fun _ => Iff.rfl

theorem stepMod_keeps (h : At fmt x (c :: l)) :
    Keeps fmt .mod (c :: l) (stepMod fmt c x) := by
  fun_cases stepMod fmt c
  case case2 =>
    -- the second `l` is read ahead of the cursor, and the cursor then passes both
    beta_reduce
    rw [h.next, Option.bind_some]
    cases l with
    | nil => exact h.keeps_fetch rfl (by simp) Iff.rfl
    | cons d l =>
      by_cases hd : d = 'l'
      · subst hd
        obtain ⟨-, hat⟩ := h.fetch rfl
        exact hat.keeps_fetch rfl (by simp) Iff.rfl
      · rw [List.headD_cons, if_neg hd]
        refine h.keeps_fetch rfl (by simp) ?_
        simp [Safe, skipModifier, hd]
  case case5 h₁ h₂ h₃ h₄ =>
    refine h.keeps rfl rfl (by simp [number]) ?_
    rw [Safe, Safe, skipModifier, if_neg h₂, if_neg (by rintro (h | h | h) <;> contradiction)]
  all_goals exact h.keeps_fetch rfl (by simp) Iff.rfl

/-- Only `%w` moves the cursor in its conversion. -/
theorem convert_format (hw : c ≠ 'w') :
    ∃ y, convert fmt args c x = some y ∧ y.format = x.format := by
  fun_cases convert fmt args c
  case case17 => exact absurd rfl hw
  all_goals exact ⟨_, rfl, rfl⟩

theorem stepConv_keeps (h : At fmt x (c :: l)) :
    Keeps fmt .conv (c :: l) (x.stepConv fmt args) := by
  have hch : x.ch = c := h.ch
  unfold stepConv
  by_cases hw : c = 'w'
  · subst hw
    have hconvert : convert fmt args x.ch x = x.fetch fmt := by rw [hch, convert]
    obtain ⟨hfetch, hat⟩ := h.fetch rfl
    rw [hconvert, hfetch, Option.bind_some]
    cases l with
    | nil => exact hat.keeps_fetch_nil rfl (by simp [Safe, directivesFrom])
    | cons d l =>
      refine hat.keeps_fetch rfl (by simp) ?_
      simp [reset, Safe, directivesFrom]
  · obtain ⟨y, hy, hformat⟩ := convert_format hw
    rw [hch, hy, Option.bind_some]
    refine h.keeps_fetch hformat (by simp) ?_
    simp [reset, Safe, directivesFrom, hw, Ne.symm hw]

/-- A round keeps the verdict on what is left of the format. -/
theorem step_keeps (args : ℕ → Arg) (h : At fmt x l) (hdone : x.state ≠ .done) :
    Keeps fmt x.state l (x.step fmt args) := by
  unfold step
  cases l with
  | nil =>
    have hch : x.ch = '\x00' := h.ch
    rw [if_pos hch]
    have hlt : number x.state < number .done := by
      cases hstate : x.state <;> first | decide | exact absurd hstate hdone
    exact h.keeps rfl rfl hlt (iff_of_true trivial (safe_nil _))
  | cons c l =>
    have hch : x.ch = c := h.ch
    have hnul : x.ch ≠ '\x00' := by
      obtain ⟨done, htext, -⟩ := h.text
      rintro hnul
      exact fmt.noNul (by simp [htext, ← hch, hnul])
    rw [if_neg hnul, hch]
    cases hstate : x.state with
    | default => exact stepDefault_keeps h hstate
    | flags => exact stepFlags_keeps h hstate
    | min => exact stepMin_keeps h hstate
    | dot => exact stepDot_keeps h
    | max => exact stepMax_keeps h hstate
    | mod => exact stepMod_keeps h
    | conv => exact stepConv_keeps h
    | done => exact absurd hstate hdone

theorem start_at (fmt : CString) (s : Sink) : At fmt (start fmt s) fmt.chars :=
  ⟨⟨[], rfl, rfl⟩, rfl⟩

/-- What is known about the loop before its first round. -/
theorem judged (fmt : CString) (args : ℕ → Arg) :
    While.Judged (step fmt args) isDone (fun x => ∃ l, At fmt x l)
      (fun x => rounds x.state (x.ahead fmt)) fun x => Safe x.state (x.ahead fmt) where
  round := by
    rintro x y ⟨l, hl⟩ hdone hstep
    have hkeeps := step_keeps args hl (by simpa [isDone] using hdone)
    rw [hstep] at hkeeps
    obtain ⟨l', hl', hlt, hsafe⟩ := hkeeps
    refine ⟨⟨l', hl'⟩, ?_⟩
    rw [hl.ahead, hl'.ahead]
    exact ⟨hlt, hsafe⟩
  fault := by
    rintro x ⟨l, hl⟩ hdone hstep
    have hkeeps := step_keeps args hl (by simpa [isDone] using hdone)
    rw [hstep] at hkeeps
    rw [hl.ahead]
    exact hkeeps
  stopped := by
    rintro x - hdone
    have hstate : x.state = .done := by simpa [isDone] using hdone
    rw [hstate]
    trivial

/-- Every character that `dopr` fetches lies at or before the NUL, and the loop ends, exactly if
    no directive `%w` stands at the very end of the format. -/
theorem dopr_ends_iff (fmt : CString) (args : ℕ → Arg) (s : Sink) :
    While.Ends (step fmt args) isDone (start fmt s) ↔ ('w', []) ∉ directives fmt.chars := by
  have hstart := start_at fmt s
  rw [(judged fmt args).ends_iff ⟨fmt.chars, hstart⟩, hstart.ahead]
  rfl

/-- In `"%w"` the conversion takes the NUL for the character that it swallows. -/
theorem dopr_overruns :
    ¬ While.Ends (step ⟨['%', 'w'], by decide⟩ fun _ => ⟨0, none, fun _ _ _ _ => []⟩) isDone
      (start ⟨['%', 'w'], by decide⟩ { buffer := none, maxlen := 0 }) := by
  rintro ⟨hno, -⟩
  exact hno 6 rfl

end Dopr

end Pth
