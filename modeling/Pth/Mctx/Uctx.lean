-- SUMMARY: User-space contexts of pth_uctx.c: where control goes at a switch and when a start function returns.
import Mathlib.Logic.Function.Basic
import Pth.Lib.Machine
import Pth.Types

/-!
# User-space contexts

A user-space context keeps the place at which `pth_mctx_switch` left it. A context made by
`pth_uctx_make` keeps a place in `pth_uctx_trampoline`, in front of the call of its start
function. What the code on the stacks does between its calls is left open. -/

namespace Pth

/-- Where a stack is continued. -/
inductive Site where
  /-- In front of its start function. -/
  | start
  /-- Right after the call of `pth_uctx_switch` with this number. -/
  | behind (call : ℕ)
  deriving DecidableEq, Repr

/-- A site on a stack: the one of the caller (`none`), or one set up by `pth_uctx_make`. -/
structure Place where
  stack : Option ℕ
  site : Site
  deriving DecidableEq, Repr

/-- The structure `pth_uctx_st`, where the null pointer is `0`. Of `uc_mctx` it has the place
    that is kept in it, and the field `error`. -/
structure Uctx where
  stackOwn : Bool
  stackPtr : BitVec 64
  stackLen : BitVec 64
  mctxSet : Bool
  mctx : Option Place
  error : Errno

/-- A context as `pth_uctx_create` leaves it. -/
def Uctx.create : Uctx where
  stackOwn := false
  stackPtr := 0
  stackLen := 0
  mctxSet := false
  mctx := none
  error := .other 0

/-- The local copy of `pth_uctx_trampoline_ctx`, as far as it is read again. -/
structure Trampoline (κ : Type*) where
  uctxThis : κ
  uctxAfter : Option κ

/-- The contexts `κ`, and one frame of `pth_uctx_trampoline` for each stack that was made.
    `control` is the place at which control came to the code that runs, or `none` when the
    process has exited. The calls of `pth_uctx_switch` are numbered. -/
structure Uctxs (κ : Type*) where
  uctx : κ → Uctx
  frames : List (Trampoline κ)
  control : Option Place
  calls : ℕ
  errno : Errno

/-- What the running code does. -/
inductive UctxOp (κ : Type*) where
  /-- It calls `pth_uctx_make`, with or without a start function. -/
  | make (uctx : Option κ) (skAddr skSize : BitVec 64) (startFunc : Bool) (uctxAfter : Option κ)
    (malloc : Except Errno (BitVec 64))
  /-- It calls `pth_uctx_switch`. -/
  | switch (uctxFrom uctxTo : Option κ)
  /-- The start function of its stack returns. -/
  | ret
  /-- It does something else, which may set `errno`. -/
  | work (errno : Errno)

namespace Uctxs

variable {κ : Type*} [DecidableEq κ]

/-! ## The functions -/

def set (s : Uctxs κ) (u : κ) (c : Uctx) : Uctxs κ :=
  { s with uctx := Function.update s.uctx u c }

/-- The function `pth_error`. -/
def error (s : Uctxs κ) (e : Errno) : Option Ret × Uctxs κ :=
  (some (.error e), { s with errno := e })

/-- The macro `pth_mctx_restore`. -/
def mctxRestore (s : Uctxs κ) (u : κ) : Uctxs κ := { s with errno := (s.uctx u).error }

/-- `pth_mctx_switch` from the context `old`, which keeps the place `p`, to `new`. Behind the
    switch, `errno` is the one that `new` was left with. -/
def mctxSwitch (s : Uctxs κ) (old new : κ) (p : Place) : Option (Place × Uctxs κ) :=
  let s := s.set old { s.uctx old with error := s.errno, mctx := some p }
  (s.uctx new).mctx.map fun q => (q, { s with control := some q, errno := (s.uctx new).error })

/-- `pth_uctx_make` from the machine context on. The switch into the trampoline and back
    leaves the context in front of the start function, with the `errno` of the caller, and puts
    a frame of the trampoline on the new stack. -/
def makeMctx (s : Uctxs κ) (u : κ) (c : Uctx) (uctxAfter : Option κ) : Option Ret × Uctxs κ :=
  let skAddrHi := c.stackPtr + c.stackLen
  -- the test of `pth_mctx_set`
  if c.stackPtr = 0 ∨ skAddrHi = 0 ∨ skAddrHi ≤ c.stackPtr then (s.set u c).error s.errno
  else
    let c := { c with
      mctx := some ⟨some s.frames.length, .start⟩
      error := s.errno
      mctxSet := true }
    (some .ok, { s.set u c with frames := s.frames ++ [⟨u, uctxAfter⟩] })

/-- The function `pth_uctx_make`. The signal mask that it may be given is in force during the
    switch into the trampoline and back only. -/
def uctxMake (s : Uctxs κ) (uctx : Option κ) (skAddr skSize : BitVec 64) (startFunc : Bool)
    (uctxAfter : Option κ) (malloc : Except Errno (BitVec 64)) : Option Ret × Uctxs κ :=
  match uctx with
  | none => s.error .EINVAL
  | some u =>
    if !startFunc ∨ skSize < 16 * 1024 then s.error .EINVAL
    else if skAddr = 0 then
      match malloc with
      | .error e => s.error e
      | .ok p =>
        s.makeMctx u { s.uctx u with stackOwn := true, stackPtr := p, stackLen := skSize }
          uctxAfter
    else
      s.makeMctx u { s.uctx u with stackOwn := false, stackPtr := skAddr, stackLen := skSize }
        uctxAfter

/-- The function `pth_uctx_switch`, up to where control continues; if that is behind a call of
    the function, this call now returns. -/
def uctxSwitch (s : Uctxs κ) (p : Place) : Option κ → Option κ → Option (Option Ret × Uctxs κ)
  | some uctxFrom, some uctxTo =>
    if !(s.uctx uctxTo).mctxSet then some (s.error .EPERM)
    else
      let s := s.set uctxFrom { s.uctx uctxFrom with mctxSet := true }
      let s := { s with calls := s.calls + 1 }
      (s.mctxSwitch uctxFrom uctxTo ⟨p.stack, .behind s.calls⟩).map fun (q, s) =>
        (if q.site = .start then none else some .ok, s)
  | _, _ => some (s.error .EINVAL)

/-- The rest of `pth_uctx_trampoline` behind the start function. -/
def uctxTrampoline (s : Uctxs κ) (ctx : Trampoline κ) : Uctxs κ :=
  let s := match ctx.uctxAfter with
    | some u => s.mctxRestore u
    | none => s
  -- `exit(0)`
  { s with control := none }

/-- The frame of the trampoline below the code that runs. -/
def frame (s : Uctxs κ) : Option (Trampoline κ) :=
  s.control.bind fun p => p.stack.bind fun n => s.frames[n]?

/-- All sequences of calls, on whichever stack control is. -/
def machine : Machine (Uctxs κ) (UctxOp κ) (Option Ret) where
  init s := (∀ u, s.uctx u = .create) ∧ s.frames = [] ∧ s.control = some ⟨none, .start⟩
  enabled s
    | .ret => s.frame.isSome
    | .make .. | .switch .. | .work _ => s.control.isSome
  exec s
    | .make uctx skAddr skSize startFunc uctxAfter malloc =>
      some (s.uctxMake uctx skAddr skSize startFunc uctxAfter malloc)
    | .switch uctxFrom uctxTo => s.control.bind fun p => s.uctxSwitch p uctxFrom uctxTo
    | .ret => s.frame.map fun ctx => (none, s.uctxTrampoline ctx)
    | .work errno => some (none, { s with errno := errno })

/-! ## Switches find a place -/

/-- A context that is marked as set keeps a place. -/
def Kept (s : Uctxs κ) : Prop := ∀ u, (s.uctx u).mctxSet = true → (s.uctx u).mctx.isSome

variable {s s' : Uctxs κ} {op : UctxOp κ} {o : Option Ret}

theorem kept_set {u : κ} {c : Uctx}
    (h : ∀ v ≠ u, (s.uctx v).mctxSet = true → (s.uctx v).mctx.isSome)
    (hc : c.mctxSet = true → c.mctx.isSome) : (s.set u c).Kept := by
  intro v hv
  by_cases huv : v = u
  · subst huv
    simp only [set, Function.update_self] at hv ⊢
    exact hc hv
  · simp only [set, Function.update_of_ne huv] at hv ⊢
    exact h v huv hv

theorem Kept.makeMctx (h : s.Kept) {u : κ} {c : Uctx} (hc : c.mctxSet = true → c.mctx.isSome)
    (uctxAfter : Option κ) : (s.makeMctx u c uctxAfter).2.Kept := by
  unfold Uctxs.makeMctx
  dsimp only
  split
  · exact kept_set (fun v _ => h v) hc
  · exact kept_set (fun v _ => h v) fun _ => rfl

theorem Kept.uctxMake (h : s.Kept) (uctx : Option κ) (skAddr skSize : BitVec 64)
    (startFunc : Bool) (uctxAfter : Option κ) (malloc : Except Errno (BitVec 64)) :
    (s.uctxMake uctx skAddr skSize startFunc uctxAfter malloc).2.Kept := by
  cases uctx with
  | none => exact h
  | some u =>
    unfold Uctxs.uctxMake
    dsimp only
    split_ifs
    · exact h
    · cases malloc with
      | error e => exact h
      | ok p =>
        refine Kept.makeMctx h ?_ uctxAfter
        exact h u
    · refine Kept.makeMctx h ?_ uctxAfter
      exact h u

theorem uctxMake_control (s : Uctxs κ) (uctx : Option κ) (skAddr skSize : BitVec 64)
    (startFunc : Bool) (uctxAfter : Option κ) (malloc : Except Errno (BitVec 64)) :
    (s.uctxMake uctx skAddr skSize startFunc uctxAfter malloc).2.control = s.control := by
  have hmctx (u : κ) (c : Uctx) : (s.makeMctx u c uctxAfter).2.control = s.control := by
    unfold makeMctx
    dsimp only
    split <;> rfl
  cases uctx with
  | none => rfl
  | some u =>
    unfold uctxMake
    dsimp only
    split_ifs
    · rfl
    · cases malloc with
      | error e => rfl
      | ok p => exact hmctx u _
    · exact hmctx u _

/-- The place of the context that is left is saved before the other one is continued, so the
    two may be the same. -/
theorem mctxSwitch_kept (s : Uctxs κ) (old new : κ) (p : Place)
    (h : ∀ v ≠ old, (s.uctx v).mctxSet = true → (s.uctx v).mctx.isSome)
    (hnew : (s.uctx new).mctxSet = true) :
    ∃ q s', s.mctxSwitch old new p = some (q, s') ∧ s'.Kept ∧ s'.control = some q := by
  let s₁ := s.set old { s.uctx old with error := s.errno, mctx := some p }
  have hkept : s₁.Kept := kept_set h fun _ => rfl
  have hset : (s₁.uctx new).mctxSet = true := by
    by_cases heq : new = old
    · subst heq
      simpa [s₁, set] using hnew
    · simpa [s₁, set, heq] using hnew
  obtain ⟨q, hq⟩ := Option.isSome_iff_exists.mp (hkept new hset)
  refine ⟨q, { s₁ with control := some q, errno := (s₁.uctx new).error }, ?_, hkept, rfl⟩
  simp only [mctxSwitch, s₁] at hq ⊢
  rw [hq, Option.map_some]

/-- A switch does not fault. -/
theorem Kept.uctxSwitch (h : s.Kept) {p : Place} (hp : s.control = some p)
    (uctxFrom uctxTo : Option κ) : ∃ o s', s.uctxSwitch p uctxFrom uctxTo = some (o, s') ∧
      s'.Kept ∧ s'.control.isSome := by
  have hcontrol : s.control.isSome := by rw [hp, Option.isSome_some]
  cases uctxFrom with
  | none => exact ⟨_, _, rfl, h, hcontrol⟩
  | some u =>
    cases uctxTo with
    | none => exact ⟨_, _, rfl, h, hcontrol⟩
    | some v =>
      unfold Uctxs.uctxSwitch
      dsimp only
      split
      · exact ⟨_, _, rfl, h, hcontrol⟩
      · next hset =>
        let s₁ := s.set u { s.uctx u with mctxSet := true }
        have hothers : ∀ w ≠ u, (s₁.uctx w).mctxSet = true → (s₁.uctx w).mctx.isSome := by
          intro w hw
          simpa [s₁, set, hw] using h w
        have hto : (s₁.uctx v).mctxSet = true := by
          by_cases huv : v = u
          · simp [s₁, set, huv]
          · simpa [s₁, set, huv] using hset
        obtain ⟨q, s', heq, hkept, hq⟩ := mctxSwitch_kept { s₁ with calls := s.calls + 1 } u v
          ⟨p.stack, .behind (s.calls + 1)⟩ hothers hto
        exact ⟨_, s', congrArg _ heq, hkept, by rw [hq, Option.isSome_some]⟩

/-- An operation does not fault, and the process goes on unless a start function has
    returned. -/
theorem Kept.step (h : s.Kept) (hen : machine.enabled s op) :
    ∃ o s', machine.Step s op o s' ∧ s'.Kept ∧ (op ≠ .ret → s'.control.isSome) := by
  cases op with
  | make uctx skAddr skSize startFunc uctxAfter malloc =>
    refine ⟨(s.uctxMake uctx skAddr skSize startFunc uctxAfter malloc).1,
      (s.uctxMake uctx skAddr skSize startFunc uctxAfter malloc).2, ⟨hen, rfl⟩,
      Kept.uctxMake h _ _ _ _ _ _, fun _ => ?_⟩
    rw [uctxMake_control]
    exact hen
  | switch uctxFrom uctxTo =>
    obtain ⟨p, hp⟩ := Option.isSome_iff_exists.mp hen
    obtain ⟨o, s', heq, hkept, hcontrol⟩ := h.uctxSwitch hp uctxFrom uctxTo
    exact ⟨o, s', ⟨hen, by simp [machine, hp, heq]⟩, hkept, fun _ => hcontrol⟩
  | ret =>
    obtain ⟨ctx, hctx⟩ := Option.isSome_iff_exists.mp hen
    refine ⟨_, _, ⟨hen, by simp only [machine, hctx, Option.map_some]; rfl⟩, ?_, nofun⟩
    unfold uctxTrampoline
    cases ctx.uctxAfter <;> exact h
  | work errno => exact ⟨_, _, ⟨hen, rfl⟩, h, fun _ => hen⟩

theorem kept_of_reachable (h : machine.Reachable s) : s.Kept := by
  refine h.invariant ?_ ?_
  · intro s hinit u hset
    simp [hinit.1, Uctx.create] at hset
  · intro s op o s' hs _ hstep
    obtain ⟨o₁, s₁, hstep₁, hs₁, -⟩ := hs.step hstep.1
    -- a machine has one step for an operation
    have heq : s₁ = s' := congrArg Prod.snd (Option.some.inj (hstep₁.2.symm.trans hstep.2))
    exact heq ▸ hs₁

/-! ## When a start function returns -/

/-- What the manual says about the end of a start function: control continues in the context
    `uctx_after` where that one was left, and the process exits only if there is none. -/
structure Continues (s : Uctxs κ) (op : UctxOp κ) (s' : Uctxs κ) : Prop where
  after : op = .ret → ∀ ctx u stack call, s.frame = some ctx → ctx.uctxAfter = some u →
    (s.uctx u).mctx = some ⟨stack, .behind call⟩ → s'.control = some ⟨stack, .behind call⟩
  exits : s'.control = none → op = .ret ∧ ∃ ctx, s.frame = some ctx ∧ ctx.uctxAfter = none

/-- A start function returns only in a context without a successor. -/
def Last (s : Uctxs κ) (op : UctxOp κ) : Prop :=
  op = .ret → ∀ ctx, s.frame = some ctx → ctx.uctxAfter = none

/-- Whatever contexts were made and switched to, the next operation goes as documented if and
    only if it is not the return of a start function with a successor: `pth_mctx_restore` does
    not switch, and the process exits. -/
theorem continues_iff_last (h : machine.Reachable s) (op : UctxOp κ)
    (hen : machine.enabled s op) :
    ∃ o s', machine.Step s op o s' ∧ (s.Continues op s' ↔ s.Last op) := by
  obtain ⟨o, s', hstep, -, hcontrol⟩ := (kept_of_reachable h).step hen
  refine ⟨o, s', hstep, ?_⟩
  by_cases hop : op = .ret
  · subst hop
    obtain ⟨ctx, hctx⟩ := Option.isSome_iff_exists.mp hen
    have hexit : s'.control = none := by
      have hexec := hstep.2
      simp only [machine, hctx, Option.map_some, Option.some.injEq, Prod.mk.injEq] at hexec
      rw [← hexec.2, uctxTrampoline]
    constructor
    · intro hcont _ ctx' hctx'
      obtain ⟨-, ctx₁, hctx₁, hafter⟩ := hcont.exits hexit
      rw [hctx'] at hctx₁
      exact Option.some.inj hctx₁ ▸ hafter
    · intro hlast
      have hafter := hlast rfl ctx hctx
      refine ⟨fun _ ctx' u _ _ hctx' hu => ?_, fun _ => ⟨rfl, ctx, hctx, hafter⟩⟩
      rw [hlast rfl ctx' hctx'] at hu
      simp at hu
  · have hgoes : s'.control ≠ none := by
      simpa [Option.isSome_iff_ne_none] using hcontrol hop
    refine iff_of_true ⟨fun h => absurd h hop, fun h => absurd h hgoes⟩ fun h => absurd h hop

instance (s : Uctxs κ) : (op : UctxOp κ) → Decidable (machine.enabled s op)
  | .ret => inferInstanceAs (Decidable (s.frame.isSome = true))
  | .make .. | .switch .. | .work _ => inferInstanceAs (Decidable (s.control.isSome = true))

/-- The program has called `pth_uctx_create` twice. -/
def two : Uctxs Bool where
  uctx _ := .create
  frames := []
  control := some ⟨none, .start⟩
  calls := 0
  errno := .other 0

theorem two_reachable : machine.Reachable two := .init ⟨fun _ => rfl, rfl, rfl⟩

/-- A worker without a successor is entered and left again, and returns later. -/
theorem continues_iff_last_worker : ∃ (s : Uctxs Bool) (o : Option Ret) (s' : Uctxs Bool),
    machine.Reachable s ∧ machine.Step s .ret o s' ∧ s.Continues .ret s' := by
  obtain ⟨s, hs, hen, hframe⟩ := two_reachable.play
    (p := fun s => s.frame.isSome = true ∧ s.frame.all fun ctx => ctx.uctxAfter = none)
    (l := [.make (some true) 0x10000 0x8000 true none (.ok 0),
      .switch (some false) (some true), .switch (some true) (some false),
      .switch (some false) (some true)]) (by decide)
  have hlast : s.Last .ret := by
    intro _ ctx hctx
    simpa [hctx] using hframe
  obtain ⟨o, s', hstep, hiff⟩ := continues_iff_last hs .ret hen
  exact ⟨s, o, s', hs, hstep, hiff.mpr hlast⟩

/-- A worker whose successor is the context it was entered from returns, and the process
    exits. -/
theorem exits_with_successor : ∃ (s : Uctxs Bool) (o : Option Ret) (s' : Uctxs Bool),
    machine.Reachable s ∧ machine.Step s .ret o s' ∧
    (s.frame.any fun ctx => ctx.uctxAfter = some false) = true ∧
    (s.uctx false).mctx = some ⟨none, .behind 1⟩ ∧ s'.control = none ∧ ¬ s.Continues .ret s' := by
  obtain ⟨s, o, s', hs, hstep, hframe, hmctx, hcontrol⟩ := two_reachable.play_step (i := UctxOp.ret)
    (p := fun s _ s' => (s.frame.any fun ctx => ctx.uctxAfter = some false) = true ∧
      (s.uctx false).mctx = some ⟨none, .behind 1⟩ ∧ s'.control = none)
    (l := [.make (some true) 0x10000 0x8000 true (some false) (.ok 0),
      .switch (some false) (some true)]) (by decide)
  refine ⟨s, o, s', hs, hstep, hframe, hmctx, hcontrol, fun hcont => ?_⟩
  obtain ⟨-, ctx, hctx, hafter⟩ := hcont.exits hcontrol
  simp [hctx, hafter] at hframe

end Uctxs

end Pth
