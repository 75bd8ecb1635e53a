-- SUMMARY: The destructors that `pth_key_destroydata` calls for the values of a terminating thread.
import Mathlib.Data.Finset.Card
import Pth.Data.Keys

/-!
# Destroying the data of a thread

`pth_key_destroydata` goes through the keys a few times, takes the values out of the thread's
array and hands them to the destructors of their keys. What the destructors do is not known:
the calls of the functions on keys that are made while the `i`-th destructor runs are a
parameter. Only the array that has gone gives `none`. -/

namespace Pth

/-- `PTH_DESTRUCTOR_ITERATIONS` -/
def destructorIterations : ℕ := 4

/-- One call of a destructor: for which key, with which value, the keys when the value was found,
    and the keys when the destructor was called. -/
structure DestructorCall (τ δ ν : Type*) where
  key : ℕ
  destructor : δ
  data : ν
  found : Keys τ δ ν
  called : Keys τ δ ν

/-- The keys, and the destructors that have been called so far. -/
structure Destroying (τ δ ν : Type*) where
  keys : Keys τ δ ν
  calls : List (DestructorCall τ δ ν)

namespace Destroying

variable {τ δ ν : Type*} [DecidableEq τ]

/-! ## The function -/

/-- The calls of the functions on keys that are made while a destructor runs. -/
def runOps (s : Keys τ δ ν) (ops : List (KeyOp τ δ ν)) : Keys τ δ ν :=
  ops.foldl (fun s op => (KeyRun.call s op).2) s

/-- Take the value of `key` out of the array of `t`. -/
def takeOut (s : Keys τ δ ν) (t : τ) (values : ℕ → Option ν) (key : ℕ) : Keys τ δ ν :=
  { s with
    dataValue := Function.update s.dataValue t (some (Function.update values key none))
    dataCount := Function.update s.dataCount t (s.dataCount t - 1) }

/-- The body of the inner loop up to the call of the destructor. -/
def visit (acts : ℕ → List (KeyOp τ δ ν)) (t : τ) (key : ℕ) (x : Destroying τ δ ν) :
    Option (Destroying τ δ ν) :=
  if x.keys.dataCount t > 0 then
    if x.keys.used key then
      (x.keys.dataValue t).map fun values =>
        match values key with
        | none => x
        | some data =>
          let s := takeOut x.keys t values key
          match x.keys.destructor key with
          | none => { x with keys := s }
          | some destructor =>
            { keys := runOps s (acts x.calls.length)
              calls := x.calls ++ [{ key := key, destructor := destructor, data := data
                                     found := x.keys, called := s }] }
    else some x
  else some x

/-- The loop over the keys, with `n` keys left. -/
def keyLoop (acts : ℕ → List (KeyOp τ δ ν)) (t : τ) : ℕ → ℕ → Destroying τ δ ν →
    Option (Destroying τ δ ν)
  | 0, _, x => some x
  | n + 1, key, x =>
    (visit acts t key x).bind fun x' =>
      if x'.keys.dataCount t = 0 then some x' else keyLoop acts t n (key + 1) x'

/-- The iterations, with `n` of them left. -/
def iterLoop (acts : ℕ → List (KeyOp τ δ ν)) (t : τ) : ℕ → Destroying τ δ ν →
    Option (Destroying τ δ ν)
  | 0, x => some x
  | n + 1, x =>
    (keyLoop acts t keyMax 0 x).bind fun x' =>
      if x'.keys.dataCount t = 0 then some x' else iterLoop acts t n x'

/-- `pth_key_destroydata` -/
def keyDestroydata (acts : ℕ → List (KeyOp τ δ ν)) (s : Keys τ δ ν) (t : Option τ) :
    Option (Destroying τ δ ν) :=
  match t with
  | none => some { keys := s, calls := [] }
  | some t =>
    match s.dataValue t with
    | none => some { keys := s, calls := [] }
    | some _ =>
      (iterLoop acts t destructorIterations { keys := s, calls := [] }).map fun x =>
        { x with keys := { x.keys with dataValue := Function.update x.keys.dataValue t none } }

/-! ## What a destructor finds -/

/-- The call is for a key in use with this value, which has been taken out before. -/
structure CallOk (t : τ) (c : DestructorCall τ δ ν) : Prop where
  range : c.key < keyMax
  used : c.found.used c.key = true
  destructor : c.found.destructor c.key = some c.destructor
  value : c.found.value t c.key = some c.data
  cleared : c.called.value t c.key = none
  lowered : c.called.dataCount t = c.found.dataCount t - 1

variable {acts : ℕ → List (KeyOp τ δ ν)} {t : τ} {k key n : ℕ} {x x' : Destroying τ δ ν}
  {s : Keys τ δ ν} {values : ℕ → Option ν}

theorem keySetdata_snd (s : Keys τ δ ν) (current : τ) (key : ℤ) (value : Option ν) (calloc : Bool) :
    (s.keySetdata current key value calloc).2 = s ∨
      ∃ values, (s.keySetdata current key value calloc).2 =
        s.store current values key.toNat value := by
  unfold Keys.keySetdata
  cases s.dataValue current with
  | none =>
    split_ifs
    · exact .inl rfl
    · exact .inl rfl
    · exact .inl rfl
    · exact .inr ⟨_, rfl⟩
  | some values =>
    dsimp only
    split_ifs
    · exact .inl rfl
    · exact .inl rfl
    · exact .inr ⟨values, rfl⟩

theorem isSome_call (op : KeyOp τ δ ν) (h : (s.dataValue t).isSome) :
    ((KeyRun.call s op).2.dataValue t).isSome := by
  cases op with
  | create key func =>
    have hkeep : (s.keyCreate key func).2.2.dataValue = s.dataValue := by
      cases key with
      | false => rfl
      | true => rcases s.keyCreate_cases func with ⟨k, -, heq⟩ | ⟨-, heq⟩ <;> rw [heq]
    rw [KeyRun.call, hkeep]
    exact h
  | delete key =>
    rw [KeyRun.call, (s.keyDelete_keeps key).1]
    exact h
  | setdata current key value calloc =>
    rcases keySetdata_snd s current key value calloc with heq | ⟨values, heq⟩
    · rw [KeyRun.call, heq]
      exact h
    · rw [KeyRun.call, heq]
      by_cases ht : t = current
      · simp [Keys.store, ht]
      · simpa [Keys.store, ht] using h
  | getdata current key => exact h

/-- The thread keeps its array of values whatever functions on keys are called. -/
theorem isSome_runOps (ops : List (KeyOp τ δ ν)) (h : (s.dataValue t).isSome) :
    ((runOps s ops).dataValue t).isSome := by
  induction ops generalizing s with
  | nil => exact h
  | cons op ops ih => exact ih (isSome_call op h)

theorem value_takeOut (hvalues : s.dataValue t = some values) :
    (takeOut s t values key).value t k = if k = key then none else s.value t k := by
  by_cases hk : k = key <;> simp [Keys.value, takeOut, hk, hvalues]

/-- Everything a visit of one key can do. -/
theorem visit_cases (h : visit acts t key x = some x') :
    (x' = x ∧
      (x.keys.dataCount t ≤ 0 ∨ x.keys.used key = false ∨ x.keys.value t key = none)) ∨
    ∃ values data, x.keys.used key = true ∧ x.keys.dataValue t = some values ∧
      x.keys.value t key = some data ∧
      ((x.keys.destructor key = none ∧ x' = { x with keys := takeOut x.keys t values key }) ∨
        ∃ d, x.keys.destructor key = some d ∧
          x' = { keys := runOps (takeOut x.keys t values key) (acts x.calls.length)
                 calls := x.calls ++ [{ key := key, destructor := d, data := data, found := x.keys
                                        called := takeOut x.keys t values key }] }) := by
  unfold visit at h
  split_ifs at h with hcount hused
  · obtain ⟨values, hvalues, h⟩ := Option.map_eq_some_iff.mp h
    have hvalue : x.keys.value t key = values key := by simp [Keys.value, hvalues]
    cases hdata : values key with
    | none =>
      rw [hdata] at h hvalue
      exact .inl ⟨h.symm, .inr (.inr hvalue)⟩
    | some data =>
      rw [hdata] at h hvalue
      refine .inr ⟨values, data, hused, hvalues, hvalue, ?_⟩
      cases hd : x.keys.destructor key with
      | none =>
        simp only [hd] at h
        exact .inl ⟨rfl, h.symm⟩
      | some d =>
        simp only [hd] at h
        exact .inr ⟨d, rfl, h.symm⟩
  · cases h
    exact .inl ⟨rfl, .inr (.inl (by simpa using hused))⟩
  · cases h
    exact .inl ⟨rfl, .inl (by simpa using hcount)⟩

/-- A visit calls the destructor of its key at most once. -/
theorem visit_calls (h : visit acts t key x = some x') (hkey : key < keyMax) :
    x'.calls = x.calls ∨ ∃ c, CallOk t c ∧ c.key = key ∧ x'.calls = x.calls ++ [c] := by
  obtain ⟨rfl, -⟩ | ⟨values, data, hused, hvalues, hvalue, ⟨-, rfl⟩ | ⟨d, hd, rfl⟩⟩ :=
    visit_cases h
  · exact .inl rfl
  · exact .inl rfl
  · refine .inr ⟨_, ⟨hkey, hused, hd, hvalue, ?_, ?_⟩, rfl, rfl⟩
    · simp [value_takeOut hvalues]
    · simp [takeOut]

theorem exists_visit (acts : ℕ → List (KeyOp τ δ ν)) (key : ℕ) (hx : (x.keys.dataValue t).isSome) :
    ∃ x', visit acts t key x = some x' ∧ (x'.keys.dataValue t).isSome := by
  obtain ⟨x', hvisit⟩ : ∃ x', visit acts t key x = some x' := by
    obtain ⟨values, hvalues⟩ := Option.isSome_iff_exists.mp hx
    unfold visit
    split_ifs <;> simp [hvalues]
  refine ⟨x', hvisit, ?_⟩
  obtain ⟨rfl, -⟩ | ⟨values, data, -, -, -, ⟨-, rfl⟩ | ⟨d, -, rfl⟩⟩ := visit_cases hvisit
  · exact hx
  · simp [takeOut]
  · exact isSome_runOps _ (by simp [takeOut])

/-! ## The loops -/

theorem exists_keyLoop (acts : ℕ → List (KeyOp τ δ ν)) (n key : ℕ)
    (hx : (x.keys.dataValue t).isSome) :
    ∃ x', keyLoop acts t n key x = some x' ∧ (x'.keys.dataValue t).isSome := by
  induction n generalizing key x with
  | zero => exact ⟨x, rfl, hx⟩
  | succ n ih =>
    obtain ⟨x₁, hvisit, hx₁⟩ := exists_visit acts key hx
    rw [keyLoop, hvisit, Option.bind_some]
    split_ifs
    · exact ⟨x₁, rfl, hx₁⟩
    · exact ih (key + 1) hx₁

theorem exists_iterLoop (acts : ℕ → List (KeyOp τ δ ν)) (n : ℕ) (hx : (x.keys.dataValue t).isSome) :
    ∃ x', iterLoop acts t n x = some x' := by
  induction n generalizing x with
  | zero => exact ⟨x, rfl⟩
  | succ n ih =>
    obtain ⟨x₁, hloop, hx₁⟩ := exists_keyLoop acts keyMax 0 hx
    rw [iterLoop, hloop, Option.bind_some]
    split_ifs
    · exact ⟨x₁, rfl⟩
    · exact ih hx₁

/-- One pass over the keys calls no destructor twice. -/
theorem keyLoop_calls (h : keyLoop acts t n key x = some x') (hkey : key + n ≤ keyMax) :
    ∃ cs, x'.calls = x.calls ++ cs ∧ (∀ c ∈ cs, CallOk t c ∧ key ≤ c.key) ∧
      (cs.map DestructorCall.key).Nodup := by
  induction n generalizing key x with
  | zero =>
    cases h
    exact ⟨[], by simp⟩
  | succ n ih =>
    obtain ⟨x₁, hvisit, h⟩ := Option.bind_eq_some_iff.mp h
    -- the calls of the rest of the pass, which are for greater keys
    obtain ⟨cs, hcs, hok, hnd⟩ : ∃ cs, x'.calls = x₁.calls ++ cs ∧
        (∀ c ∈ cs, CallOk t c ∧ key + 1 ≤ c.key) ∧ (cs.map DestructorCall.key).Nodup := by
      split_ifs at h
      · cases h
        exact ⟨[], by simp⟩
      · exact ih h (by omega)
    rcases visit_calls hvisit (by omega) with hcalls | ⟨c, hc, rfl, hcalls⟩
    · refine ⟨cs, by rw [hcs, hcalls], fun c hc => ⟨(hok c hc).1, ?_⟩, hnd⟩
      exact Nat.le_of_succ_le (hok c hc).2
    · refine ⟨c :: cs, by simp [hcs, hcalls], ?_, ?_⟩
      · intro c' hc'
        rcases List.mem_cons.mp hc' with rfl | hc'
        · exact ⟨hc, Nat.le_refl _⟩
        · exact ⟨(hok c' hc').1, Nat.le_of_succ_le (hok c' hc').2⟩
      · rw [List.map_cons, List.nodup_cons]
        refine ⟨fun hmem => ?_, hnd⟩
        obtain ⟨c', hc', heq⟩ := List.mem_map.mp hmem
        have hlt := (hok c' hc').2
        omega

/-- Every iteration calls the destructor of a key at most once. -/
theorem iterLoop_calls (h : iterLoop acts t n x = some x') :
    ∃ cs, x'.calls = x.calls ++ cs ∧ (∀ c ∈ cs, CallOk t c) ∧
      ∀ k, (cs.map DestructorCall.key).count k ≤ n := by
  induction n generalizing x with
  | zero =>
    cases h
    exact ⟨[], by simp⟩
  | succ n ih =>
    obtain ⟨x₁, hloop, h⟩ := Option.bind_eq_some_iff.mp h
    obtain ⟨cs, hcs, hok, hnd⟩ := keyLoop_calls hloop (by simp)
    obtain ⟨cs', hcs', hok', hcount⟩ : ∃ cs', x'.calls = x₁.calls ++ cs' ∧
        (∀ c ∈ cs', CallOk t c) ∧ ∀ k, (cs'.map DestructorCall.key).count k ≤ n := by
      split_ifs at h
      · cases h
        exact ⟨[], by simp⟩
      · exact ih h
    refine ⟨cs ++ cs', by rw [hcs', hcs, List.append_assoc], ?_, fun k => ?_⟩
    · intro c hc
      rcases List.mem_append.mp hc with hc | hc
      · exact (hok c hc).1
      · exact hok' c hc
    · rw [List.map_append, List.count_append]
      have hone := List.nodup_iff_count_le_one.mp hnd k
      have hrest := hcount k
      omega

/-! ## Destructors that leave the keys alone -/

/-- `data_count` is the number of values that are not `NULL`. -/
def Counted (s : Keys τ δ ν) (t : τ) : Prop :=
  s.dataCount t = ((Finset.range keyMax).filter fun k => (s.value t k).isSome).card

/-- The destructors that have been called for the key `k`, and with which values. -/
def callsFor (x : Destroying τ δ ν) (k : ℕ) : List (δ × ν) :=
  (x.calls.filter fun c => c.key = k).map fun c => (c.destructor, c.data)

theorem Counted.takeOut {data : ν} (h : Counted s t) (hvalues : s.dataValue t = some values)
    (hkey : key < keyMax) (hdata : s.value t key = some data) :
    Counted (takeOut s t values key) t := by
  have herase : ((Finset.range keyMax).filter fun k =>
      ((Destroying.takeOut s t values key).value t k).isSome) =
      ((Finset.range keyMax).filter fun k => (s.value t k).isSome).erase key := by
    ext k
    by_cases hk : k = key <;> simp [value_takeOut hvalues, hk]
  have hmem : key ∈ (Finset.range keyMax).filter fun k => (s.value t k).isSome := by
    simp [hkey, hdata]
  have hpos := Finset.card_pos.mpr ⟨key, hmem⟩
  unfold Counted at h ⊢
  rw [herase, Finset.card_erase_of_mem hmem]
  simp only [Destroying.takeOut, Function.update_self, h]
  omega

omit [DecidableEq τ] in
theorem Counted.value_eq_none (h : Counted s t) (hcount : s.dataCount t ≤ 0) (hk : k < keyMax) :
    s.value t k = none := by
  have hcard : ((Finset.range keyMax).filter fun k => (s.value t k).isSome).card = 0 := by
    unfold Counted at h
    omega
  have hnot : k ∉ (Finset.range keyMax).filter fun k => (s.value t k).isSome := by
    rw [Finset.card_eq_zero.mp hcard]
    exact Finset.notMem_empty k
  simpa [hk] using hnot

/-- The value `v` of the key `k` has been given to the destructor `d` once and is gone, or it
    is still there and has not been given to it. -/
structure Serving (t : τ) (k : ℕ) (d : δ) (v : ν) (x : Destroying τ δ ν) : Prop where
  used : x.keys.used k = true
  destructor : x.keys.destructor k = some d
  counted : Counted x.keys t
  served : x.keys.value t k = some v ∧ x.callsFor k = [] ∨
    x.keys.value t k = none ∧ x.callsFor k = [(d, v)]

/-- A visit of any key keeps `Serving`, and after a visit of the key `k` the value is gone. -/
theorem Serving.visit {d : δ} {v : ν} (hx : Serving t k d v x) (hacts : ∀ i, acts i = [])
    (hkey : key < keyMax) (h : visit acts t key x = some x') :
    Serving t k d v x' ∧ (key = k ∨ x.keys.value t k = none → x'.keys.value t k = none) := by
  obtain ⟨rfl, hwhy⟩ | ⟨values, data, hused, hvalues, hvalue, hcase⟩ := visit_cases h
  · refine ⟨hx, ?_⟩
    rintro (rfl | hnone)
    case inr => exact hnone
    rcases hwhy with hcount | hunused | hnone
    · exact hx.counted.value_eq_none hcount hkey
    · rw [hx.used] at hunused
      cases hunused
    · exact hnone
  have hcounted := hx.counted.takeOut hvalues hkey hvalue
  by_cases hk : key = k
  · subst hk
    obtain ⟨hd, -⟩ | ⟨d', hd', rfl⟩ := hcase
    · rw [hx.destructor] at hd
      cases hd
    obtain rfl : d = d' := Option.some.inj (hx.destructor.symm.trans hd')
    have hnone : (takeOut x.keys t values key).value t key = none := by
      simp [value_takeOut hvalues]
    rcases hx.served with ⟨hv, hcalls⟩ | ⟨hv, -⟩
    · obtain rfl : v = data := Option.some.inj (hv.symm.trans hvalue)
      rw [hacts]
      refine ⟨⟨hx.used, hx.destructor, hcounted, .inr ⟨hnone, ?_⟩⟩, fun _ => hnone⟩
      unfold callsFor at hcalls ⊢
      simp [List.filter_append, List.map_append, hcalls]
    · rw [hv] at hvalue
      cases hvalue
  · have hkeep : (takeOut x.keys t values key).value t k = x.keys.value t k := by
      rw [value_takeOut hvalues, if_neg fun heq => hk heq.symm]
    obtain ⟨-, rfl⟩ | ⟨d', -, rfl⟩ := hcase
    · refine ⟨⟨hx.used, hx.destructor, hcounted, by rw [hkeep]; exact hx.served⟩, ?_⟩
      exact fun hor => hkeep.trans (hor.resolve_left hk)
    · rw [hacts]
      refine ⟨⟨hx.used, hx.destructor, hcounted, ?_⟩, fun hor => hkeep.trans (hor.resolve_left hk)⟩
      have hsame : callsFor { keys := runOps (takeOut x.keys t values key) []
                              calls := x.calls ++ [{ key := key, destructor := d', data := data
                                                     found := x.keys
                                                     called := takeOut x.keys t values key }] } k =
          x.callsFor k := by
        simp [callsFor, List.filter_append, hk]
      rw [hsame, runOps, List.foldl_nil, hkeep]
      exact hx.served

omit [DecidableEq τ] in
/-- When the thread has no value left, the destructor has been called. -/
theorem Serving.value_eq_none {d : δ} {v : ν} (hx : Serving t k d v x) (hk : k < keyMax)
    (hcount : x.keys.dataCount t = 0) : x.keys.value t k = none :=
  hx.counted.value_eq_none (by omega) hk

theorem Serving.keyLoop {d : δ} {v : ν} (hx : Serving t k d v x) (hacts : ∀ i, acts i = [])
    (hk : k < keyMax) (hn : key + n = keyMax) (h : keyLoop acts t n key x = some x') :
    Serving t k d v x' ∧ (key ≤ k ∨ x.keys.value t k = none → x'.keys.value t k = none) := by
  induction n generalizing key x with
  | zero =>
    cases h
    refine ⟨hx, ?_⟩
    rintro (hle | hnone)
    · omega
    · exact hnone
  | succ n ih =>
    obtain ⟨x₁, hvisit, h⟩ := Option.bind_eq_some_iff.mp h
    obtain ⟨hx₁, hnone₁⟩ := hx.visit hacts (by omega) hvisit
    split_ifs at h with hcount
    · cases h
      exact ⟨hx₁, fun _ => hx₁.value_eq_none hk hcount⟩
    · obtain ⟨hx', hnone'⟩ := ih hx₁ (by omega) h
      refine ⟨hx', fun hor => hnone' ?_⟩
      rcases hor with hle | hnone
      · rcases Nat.eq_or_lt_of_le hle with heq | hlt
        · exact .inr (hnone₁ (.inl heq))
        · exact .inl hlt
      · exact .inr (hnone₁ (.inr hnone))

/-- After the first pass every destructor has been called, and no later pass calls it again. -/
theorem Serving.iterLoop {d : δ} {v : ν} (hx : Serving t k d v x) (hacts : ∀ i, acts i = [])
    (hk : k < keyMax) (hn : 0 < n ∨ x.keys.value t k = none) (h : iterLoop acts t n x = some x') :
    x'.callsFor k = [(d, v)] := by
  have hdone : ∀ {x}, Serving t k d v x → x.keys.value t k = none → x.callsFor k = [(d, v)] := by
    intro x hx hnone
    rcases hx.served with ⟨hsome, -⟩ | ⟨-, hcalls⟩
    · rw [hnone] at hsome
      cases hsome
    · exact hcalls
  induction n generalizing x with
  | zero =>
    cases h
    exact hdone hx (hn.resolve_left (Nat.lt_irrefl 0))
  | succ n ih =>
    obtain ⟨x₁, hloop, h⟩ := Option.bind_eq_some_iff.mp h
    obtain ⟨hx₁, hnone₁⟩ := hx.keyLoop hacts hk (by simp) hloop
    have hgone := hnone₁ (.inl (Nat.zero_le k))
    split_ifs at h
    · cases h
      exact hdone hx₁ hgone
    · exact ih hx₁ (.inr hgone) h

/-- `pth_key_destroydata` returns whatever the destructors do with the keys. It calls a destructor
    only for a key in use and with the value that the thread has stored for it, which is gone from
    the array and from the count by then, and it does so at most `PTH_DESTRUCTOR_ITERATIONS` times
    for each key. If the destructors leave the keys alone, the destructor of every key in use with
    a value is called exactly once. -/
theorem keyDestroydata_calls (acts : ℕ → List (KeyOp τ δ ν)) (s : Keys τ δ ν) (t : τ)
    (hs : Counted s t) :
    ∃ x, keyDestroydata acts s (some t) = some x ∧ (∀ c ∈ x.calls, CallOk t c) ∧
      (∀ k, (x.calls.map DestructorCall.key).count k ≤ destructorIterations) ∧
      ((∀ i, acts i = []) → ∀ k < keyMax, ∀ d v, s.used k = true → s.destructor k = some d →
        s.value t k = some v → x.callsFor k = [(d, v)]) := by
  cases hvalues : s.dataValue t with
  | none =>
    have hrun : keyDestroydata acts s (some t) = some { keys := s, calls := [] } := by
      simp only [keyDestroydata, hvalues]
    refine ⟨_, hrun, by simp, by simp, ?_⟩
    simp [Keys.value, hvalues]
  | some values =>
    obtain ⟨x, hloop⟩ := exists_iterLoop (t := t) (x := { keys := s, calls := [] }) acts
      destructorIterations (by simp [hvalues])
    obtain ⟨cs, hcs, hok, hcount⟩ := iterLoop_calls hloop
    obtain rfl : x.calls = cs := by simpa using hcs
    have hrun : keyDestroydata acts s (some t) = some { x with
        keys := { x.keys with dataValue := Function.update x.keys.dataValue t none } } := by
      simp only [keyDestroydata, hvalues, hloop, Option.map_some]
    refine ⟨_, hrun, hok, hcount, fun hacts k hk d v hused hd hv => ?_⟩
    have hserving : Serving t k d v { keys := s, calls := [] } := ⟨hused, hd, hs, .inl ⟨hv, rfl⟩⟩
    have hpos : 0 < destructorIterations := by decide
    have hcalls : x.callsFor k = [(d, v)] := hserving.iterLoop hacts hk (.inl hpos) hloop
    exact hcalls

/-- A value of a key in use, and one of a key that has been deleted. -/
theorem keyDestroydata_calls_once :
    ∃ x : Destroying Unit Unit ℕ, keyDestroydata (fun _ => [])
        { used := fun k => k == 0, destructor := fun _ => some ()
          dataValue := fun _ => some fun k => if k < 2 then some (k + 7) else none
          dataCount := fun _ => 2 } (some ()) = some x ∧
      x.callsFor 0 = [((), 7)] ∧ ∀ c ∈ x.calls, CallOk () c := by
  obtain ⟨x, hrun, hok, -, honce⟩ := keyDestroydata_calls (τ := Unit) (δ := Unit) (ν := ℕ)
    (fun _ => [])
    { used := fun k => k == 0, destructor := fun _ => some ()
      dataValue := fun _ => some fun k => if k < 2 then some (k + 7) else none
      dataCount := fun _ => 2 } () (by unfold Counted; decide +kernel)
  exact ⟨x, hrun, honce (fun _ => rfl) 0 (by decide) () 7 rfl rfl rfl, hok⟩

end Destroying

end Pth
