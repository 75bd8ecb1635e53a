-- SUMMARY: Thread-specific data: the table of keys, the values of each thread, and what a new key finds there.
import Mathlib.Logic.Function.Basic
import Mathlib.Data.Fintype.Basic
import Pth.Lib.Machine
import Pth.Types

/-!
# Thread-specific data

`pth_key_create` hands out the first slot of `pth_keytab` that is not used, and
`pth_key_delete` only takes the mark `used` from a slot. The values are kept apart from the
table, in one array for each thread, which neither of the two looks at. -/

namespace Pth

/-- The constant `PTH_KEY_MAX`. -/
def keyMax : ℕ := 256

/-- The table `pth_keytab`, whose slots have a destructor `δ` or `NULL`, and the fields
    `data_value` and `data_count` of the threads `τ`. A thread has no array of values before
    it stores one. -/
structure Keys (τ δ ν : Type*) where
  used : ℕ → Bool
  destructor : ℕ → Option δ
  dataValue : τ → Option (ℕ → Option ν)
  dataCount : τ → ℤ

namespace Keys

variable {τ δ ν : Type*} [DecidableEq τ]

/-! ## The functions -/

/-- The loop of `pth_key_create` from the slot `key` on, with `n` slots left. It also gives the
    key it leaves in `*key`. -/
def keyCreateLoop (s : Keys τ δ ν) (func : Option δ) : ℕ → ℕ → Ret × ℕ × Keys τ δ ν
  | 0, key => (.error .EAGAIN, key, s)
  | n + 1, key =>
    if s.used key = false then
      (.ok, key, { s with used := Function.update s.used key true
                          destructor := Function.update s.destructor key func })
    else s.keyCreateLoop func n (key + 1)

/-- The function `pth_key_create`; `key` is `false` for a `NULL` pointer, behind which there is
    no key to give. -/
def keyCreate (s : Keys τ δ ν) (key : Bool) (func : Option δ) : Ret × Option ℕ × Keys τ δ ν :=
  if !key then (.error .EINVAL, none, s)
  else
    let (ret, k, s') := s.keyCreateLoop func keyMax 0
    (ret, some k, s')

/-- The function `pth_key_delete`. -/
def keyDelete (s : Keys τ δ ν) (key : ℤ) : Ret × Keys τ δ ν :=
  if key < 0 ∨ key ≥ keyMax then (.error .EINVAL, s)
  else if !s.used key.toNat then (.error .ENOENT, s)
  else (.ok, { s with used := Function.update s.used key.toNat false })

/-- The assignment at the end of `pth_key_setdata`, with its account of the values. -/
def store (s : Keys τ δ ν) (current : τ) (values : ℕ → Option ν) (key : ℕ) (value : Option ν) :
    Keys τ δ ν :=
  { s with
    dataCount := Function.update s.dataCount current
      (match values key, value with
        | none, some _ => s.dataCount current + 1
        | some _, none => s.dataCount current - 1
        | none, none | some _, some _ => s.dataCount current)
    dataValue := Function.update s.dataValue current (some (Function.update values key value)) }

/-- The function `pth_key_setdata`, called by the thread `current`. The thread's first array
    comes from `calloc`, which fails or gives one filled with `NULL`. -/
def keySetdata (s : Keys τ δ ν) (current : τ) (key : ℤ) (value : Option ν) (calloc : Bool) :
    Ret × Keys τ δ ν :=
  if key < 0 ∨ key ≥ keyMax then (.error .EINVAL, s)
  else if !s.used key.toNat then (.error .ENOENT, s)
  else match s.dataValue current with
    | none =>
      if !calloc then (.error .ENOMEM, s)
      else (.ok, s.store current (fun _ => none) key.toNat value)
    | some values => (.ok, s.store current values key.toNat value)

/-- The function `pth_key_getdata`, called by the thread `current`: a value or `NULL`, and the
    error number if it sets one. -/
def keyGetdata (s : Keys τ δ ν) (current : τ) (key : ℤ) : Option ν × Option Errno :=
  if key < 0 ∨ key ≥ keyMax then (none, some .EINVAL)
  else if !s.used key.toNat then (none, some .ENOENT)
  else match s.dataValue current with
    | none => (none, none)
    | some values => (values key.toNat, none)

/-! ## What they do -/

/-- What the array of the thread `t` holds for the slot `k`. -/
def value (s : Keys τ δ ν) (t : τ) (k : ℕ) : Option ν := (s.dataValue t).bind (· k)

/-- The slot `k` is the first one that is not used. -/
def FirstUnused (s : Keys τ δ ν) (k : ℕ) : Prop :=
  k < keyMax ∧ s.used k = false ∧ ∀ j < k, s.used j = true

variable {s : Keys τ δ ν} {k : ℕ} {t : τ}

omit [DecidableEq τ] in
theorem keyGetdata_used (hk : k < keyMax) (hused : s.used k = true) :
    s.keyGetdata t k = (s.value t k, none) := by
  have hrange : ¬ ((k : ℤ) < 0 ∨ (k : ℤ) ≥ keyMax) := by omega
  unfold keyGetdata value
  rw [if_neg hrange, Int.toNat_natCast]
  cases hv : s.dataValue t <;> simp [hused]

omit [DecidableEq τ] in
theorem keyCreateLoop_of_free (func : Option δ) (n key : ℕ) (hkey : key ≤ k) (hn : k < key + n)
    (hused : s.used k = false) (hbelow : ∀ j, key ≤ j → j < k → s.used j = true) :
    s.keyCreateLoop func n key = (.ok, k,
      { s with used := Function.update s.used k true
               destructor := Function.update s.destructor k func }) := by
  induction n generalizing key with
  | zero => omega
  | succ n ih =>
    unfold keyCreateLoop
    rcases Nat.eq_or_lt_of_le hkey with rfl | hlt
    · rw [if_pos hused]
    · rw [if_neg (by simp [hbelow key le_rfl hlt])]
      exact ih (key + 1) hlt (by omega) fun j hj => hbelow j (by omega)

omit [DecidableEq τ] in
theorem keyCreateLoop_of_full (func : Option δ) (n key : ℕ)
    (hfull : ∀ j, key ≤ j → j < key + n → s.used j = true) :
    s.keyCreateLoop func n key = (.error .EAGAIN, key + n, s) := by
  induction n generalizing key with
  | zero => rfl
  | succ n ih =>
    unfold keyCreateLoop
    rw [if_neg (by simp [hfull key le_rfl (by omega)]),
      ih (key + 1) fun j hj hjn => hfull j (by omega) (by omega)]
    congr 2
    omega

omit [DecidableEq τ] in
/-- A key is created in the first unused slot, and in no other. -/
theorem keyCreate_cases (s : Keys τ δ ν) (func : Option δ) :
    (∃ k, s.FirstUnused k ∧ s.keyCreate true func = (.ok, some k,
      { s with used := Function.update s.used k true
               destructor := Function.update s.destructor k func })) ∨
    (∀ k < keyMax, s.used k = true) ∧
      s.keyCreate true func = (.error .EAGAIN, some keyMax, s) := by
  by_cases hfree : ∃ k, k < keyMax ∧ s.used k = false
  · -- the least free slot
    have hk := Nat.find_spec hfree
    have hbelow : ∀ j < Nat.find hfree, s.used j = true := by
      intro j hj
      have hmin := Nat.find_min hfree hj
      have hlt : j < keyMax := hj.trans hk.1
      simpa [hlt] using hmin
    refine .inl ⟨Nat.find hfree, ⟨hk.1, hk.2, hbelow⟩, ?_⟩
    have hloop := keyCreateLoop_of_free func keyMax 0 (Nat.zero_le _) (by simpa using hk.1)
      hk.2 fun j _ => hbelow j
    simp [keyCreate, hloop]
  · have hfull : ∀ k < keyMax, s.used k = true := by
      intro k hk
      have hnot : ¬ s.used k = false := fun h => hfree ⟨k, hk, h⟩
      simpa using hnot
    have hloop := keyCreateLoop_of_full func keyMax 0 fun j _ hj => hfull j (by simpa using hj)
    exact .inr ⟨hfull, by simp [keyCreate, hloop]⟩

omit [DecidableEq τ] in
/-- `pth_key_delete` leaves the slots used that were and are not the one it deletes. -/
theorem keyDelete_keeps (s : Keys τ δ ν) (key : ℤ) :
    (s.keyDelete key).2.dataValue = s.dataValue ∧
      ∀ k, (s.keyDelete key).2.used k = true → s.used k = true := by
  unfold keyDelete
  split_ifs
  · exact ⟨rfl, fun _ h => h⟩
  · exact ⟨rfl, fun _ h => h⟩
  · refine ⟨rfl, fun k h => ?_⟩
    by_cases hk : k = key.toNat
    · simp [hk] at h
    · simpa [hk] using h

theorem value_store (s : Keys τ δ ν) {c : τ} {values : ℕ → Option ν} (key : ℕ) (v : Option ν)
    (hvalues : ∀ k, values k = s.value c k) (t : τ) (k : ℕ) :
    (s.store c values key v).value t k = if t = c ∧ k = key then v else s.value t k := by
  by_cases ht : t = c
  · subst ht
    by_cases hk : k = key <;> simp [value, store, hk, hvalues]
  · simp [value, store, ht]

/-- `pth_key_setdata` fails and changes nothing, or it changes the one value it is asked to. -/
theorem keySetdata_cases (s : Keys τ δ ν) (c : τ) (key : ℤ) (v : Option ν) (calloc : Bool) :
    (∃ e, s.keySetdata c key v calloc = (.error e, s)) ∨
    (s.keySetdata c key v calloc).1 = .ok ∧
      (s.keySetdata c key v calloc).2.used = s.used ∧
      ∀ t k, (s.keySetdata c key v calloc).2.value t k =
        if t = c ∧ k = key.toNat then v else s.value t k := by
  unfold keySetdata
  cases hv : s.dataValue c with
  | none =>
    split_ifs
    · exact .inl ⟨_, rfl⟩
    · exact .inl ⟨_, rfl⟩
    · exact .inl ⟨_, rfl⟩
    · exact .inr ⟨rfl, rfl, s.value_store _ _ (by simp [value, hv])⟩
  | some values =>
    dsimp only
    split_ifs
    · exact .inl ⟨_, rfl⟩
    · exact .inl ⟨_, rfl⟩
    · exact .inr ⟨rfl, rfl, s.value_store _ _ (by simp [value, hv])⟩

end Keys

/-! ## Histories of calls -/

/-- A call of one of the four functions; the last two name the thread that calls. -/
inductive KeyOp (τ δ ν : Type*) where
  | create (key : Bool) (func : Option δ)
  | delete (key : ℤ)
  | setdata (current : τ) (key : ℤ) (value : Option ν) (calloc : Bool)
  | getdata (current : τ) (key : ℤ)

/-- What a call returns. -/
inductive KeyOut (ν : Type*) where
  | created (ret : Ret) (key : Option ℕ)
  | ret (ret : Ret)
  | data (value : Option ν) (errno : Option Errno)

/-- The keys together with what the callers may count on: `stored t k` is the value that the
    thread `t` has stored last since the key `k` was created. -/
structure KeyRun (τ δ ν : Type*) where
  keys : Keys τ δ ν
  stored : τ → ℕ → Option ν

namespace KeyRun

variable {τ δ ν : Type*} [DecidableEq τ]

/-- What callers make of a call and its result: a new key has no values, and a value that was
    stored is the thread's value of that key. -/
def track (stored : τ → ℕ → Option ν) : KeyOp τ δ ν → KeyOut ν → τ → ℕ → Option ν
  | .create _ _, .created .ok (some key) => fun t => Function.update (stored t) key none
  | .setdata current key value _, .ret .ok =>
    Function.update stored current (Function.update (stored current) key.toNat value)
  | _, _ => stored

/-- One call. -/
def call (s : Keys τ δ ν) : KeyOp τ δ ν → KeyOut ν × Keys τ δ ν
  | .create key func =>
    let (ret, k, s') := s.keyCreate key func
    (.created ret k, s')
  | .delete key =>
    let (ret, s') := s.keyDelete key
    (.ret ret, s')
  | .setdata current key value calloc =>
    let (ret, s') := s.keySetdata current key value calloc
    (.ret ret, s')
  | .getdata current key =>
    let (value, errno) := s.keyGetdata current key
    (.data value errno, s)

/-- All interleavings of the calls of all threads. -/
def machine : Machine (KeyRun τ δ ν) (KeyOp τ δ ν) (KeyOut ν) where
  init r := (∀ k, r.keys.used k = false) ∧ (∀ t, r.keys.dataValue t = none) ∧
    ∀ t k, r.stored t k = none
  enabled _ _ := True
  exec r op :=
    let (o, s') := call r.keys op
    some (o, { keys := s', stored := track r.stored op o })

/-- Every thread gets from every key in use what it has stored under this key since the key was
    created, or `NULL`. -/
def Fresh (r : KeyRun τ δ ν) : Prop :=
  ∀ t, ∀ k < keyMax, r.keys.used k = true → r.keys.keyGetdata t k = (r.stored t k, none)

/-- When a key is created, no thread has a value left in its slot. -/
def Clean (r : KeyRun τ δ ν) : KeyOp τ δ ν → Prop
  | .create true _ => ∀ k, r.keys.FirstUnused k → ∀ t, r.keys.value t k = none
  | _ => True

variable {r r' : KeyRun τ δ ν} {op : KeyOp τ δ ν} {o : KeyOut ν}

omit [DecidableEq τ] in
theorem fresh_iff : r.Fresh ↔
    ∀ t, ∀ k < keyMax, r.keys.used k = true → r.keys.value t k = r.stored t k := by
  refine forall₄_congr fun t k hk hused => ?_
  rw [Keys.keyGetdata_used hk hused]
  simp

theorem step_eq (hs : machine.Step r op o r') :
    r' = { keys := (call r.keys op).2, stored := track r.stored op (call r.keys op).1 } :=
  (congrArg Prod.snd (Option.some.inj hs.2)).symm

/-- A created key is as fresh as its slot is clean. -/
theorem Fresh.create (h : r.Fresh) (func : Option δ)
    (hs : machine.Step r (.create true func) o r') :
    r'.Fresh ↔ r.Clean (.create true func) := by
  obtain rfl := step_eq hs
  rw [fresh_iff] at h ⊢
  rcases r.keys.keyCreate_cases func with ⟨k, hfirst, heq⟩ | ⟨hfull, heq⟩
  · simp only [call, heq, track]
    constructor
    · intro hfresh j hj t
      obtain rfl : j = k := by
        rcases lt_trichotomy j k with hlt | rfl | hlt
        · simpa [hj.2.1] using hfirst.2.2 j hlt
        · rfl
        · simpa [hfirst.2.1] using hj.2.2 k hlt
      simpa [Keys.value] using hfresh t j hj.1 (by simp)
    · intro hclean t j hj hused
      by_cases hjk : j = k
      · subst hjk
        simpa [Keys.value] using hclean j hfirst t
      · have hold := h t j hj (by simpa [hjk] using hused)
        simpa [hjk, Keys.value] using hold
  · simp only [call, heq, track]
    refine ⟨fun _ k hfirst => ?_, fun _ => h⟩
    simpa [hfirst.2.1] using hfull k hfirst.1

/-- Every other call keeps what the callers may count on. -/
theorem Fresh.other (h : r.Fresh) (hs : machine.Step r op o r')
    (hop : ∀ func, op ≠ .create true func) : r'.Fresh := by
  obtain rfl := step_eq hs
  rw [fresh_iff] at h ⊢
  cases op with
  | create key func =>
    cases key with
    | false => exact h
    | true => exact absurd rfl (hop func)
  | delete key =>
    obtain ⟨hvalue, hused⟩ := r.keys.keyDelete_keeps key
    intro t k hk hk'
    have hold := h t k hk (hused k hk')
    simpa [call, track, Keys.value, hvalue] using hold
  | setdata current key value calloc =>
    rcases r.keys.keySetdata_cases current key value calloc with ⟨e, heq⟩ | ⟨hret, hused, hvalue⟩
    · simpa only [call, heq, track] using h
    · simp only [call, hret, hused, hvalue, track]
      intro t k hk hk'
      have hold := h t k hk hk'
      by_cases ht : t = current
      · subst ht
        by_cases hkey : k = key.toNat <;> simp [hkey, hold]
      · simpa [ht] using hold
  | getdata current key => exact h

theorem Fresh.step (h : r.Fresh) (hs : machine.Step r op o r') : r'.Fresh ↔ r.Clean op := by
  cases op with
  | create key func =>
    cases key with
    | true => exact h.create func hs
    | false => exact iff_of_true (h.other hs nofun) trivial
  | delete key => exact iff_of_true (h.other hs nofun) trivial
  | setdata current key value calloc => exact iff_of_true (h.other hs nofun) trivial
  | getdata current key => exact iff_of_true (h.other hs nofun) trivial

/-- As long as every key is created in a slot without values, each thread gets from a key
    what it has stored there since the key was created; a key created in any other slot gives
    some thread a value that belonged to a deleted key. -/
theorem fresh_iff_clean (h : machine.Reach Clean r) :
    r.Fresh ∧ ∀ op o r', machine.Step r op o r' → (r'.Fresh ↔ r.Clean op) := by
  have hfresh : r.Fresh := by
    refine h.invariant (I := Fresh) ?_ ?_
    · intro r hinit t k hk hused
      simp [hinit.1] at hused
    · intro r op o r' hr hP hs
      exact (hr.step hs).mpr hP
  exact ⟨hfresh, fun op o r' hs => hfresh.step hs⟩

/-- No key and no value, with two threads. -/
def start : KeyRun Bool Unit ℕ where
  keys := { used := fun _ => false, destructor := fun _ => none
            dataValue := fun _ => none, dataCount := fun _ => 0 }
  stored _ _ := none

theorem start_reach {P : KeyRun Bool Unit ℕ → KeyOp Bool Unit ℕ → Prop} :
    machine.Reach P start :=
  .init ⟨fun _ => rfl, fun _ => rfl, fun _ _ => rfl⟩

instance (r : KeyRun Bool Unit ℕ) (op : KeyOp Bool Unit ℕ) : Decidable (machine.enabled r op) :=
  isTrue trivial

/-- One thread stores a value under a key, the other one does not. -/
theorem fresh_iff_clean_stored : ∃ r : KeyRun Bool Unit ℕ, machine.Reach Clean r ∧
    r.stored false 0 = some 7 ∧ r.keys.keyGetdata false 0 = (some 7, none) ∧
    r.keys.keyGetdata true 0 = (none, none) := by
  have hcreate : start.Clean (.create true none) := fun _ _ _ => rfl
  have hr := Machine.Reach.step (i := KeyOp.setdata false 0 (some 7) true)
    (start_reach.step hcreate ⟨trivial, rfl⟩) trivial ⟨trivial, rfl⟩
  have hget := (fresh_iff_clean hr).1
  exact ⟨_, hr, rfl, hget false 0 (by decide) rfl, hget true 0 (by decide) rfl⟩

/-- A key is deleted and created again, and the value of the deleted one is still there. -/
theorem stale_value : ∃ r : KeyRun Bool Unit ℕ, machine.Reachable r ∧
    r.stored false 0 = none ∧ r.keys.keyGetdata false 0 = (some 7, none) ∧ ¬ r.Fresh := by
  obtain ⟨r, hr, hused, hstored, hget⟩ := start_reach.play (P := fun _ _ => True)
    (p := fun r => r.keys.used 0 = true ∧ r.stored false 0 = none ∧
      r.keys.keyGetdata false 0 = (some 7, none))
    (l := [.create true none, .setdata false 0 (some 7) true, .delete 0, .create true none])
    (by decide)
  refine ⟨r, hr, hstored, hget, fun hfresh => ?_⟩
  have hnull := hfresh false 0 (by decide) hused
  simp [hstored, hget] at hnull

end KeyRun

end Pth
