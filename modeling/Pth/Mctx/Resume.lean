-- SUMMARY: How a new context is entered, and that a context that was left continues where and as it was.
import Mathlib.Data.Nat.Bitwise
import Pth.Mctx.FpRuns
import Pth.Mctx.Uctx

/-!
# Entering and resuming contexts

`pth_mctx_set` makes a record look as if a switch had left it in front of a function, on a
stack that holds nothing but a null return address. The macro `pth_mctx_switch` keeps `errno`
in the record, next to what `pth_mctx_switch_asm` saves there. -/

namespace Pth

/-! ## Frames -/

/-- What the code on a stack is continued with: the registers that a call keeps, the stack
    pointer and the place. -/
structure Frame where
  r12 : BitVec 64
  r13 : BitVec 64
  r14 : BitVec 64
  r15 : BitVec 64
  rbx : BitVec 64
  rbp : BitVec 64
  rsp : BitVec 64
  rip : BitVec 64

/-- The frame of the running code. -/
def Cpu.frame (c : Cpu) : Frame where
  r12 := c.reg .r12
  r13 := c.reg .r13
  r14 := c.reg .r14
  r15 := c.reg .r15
  rbx := c.reg .rbx
  rbp := c.reg .rbp
  rsp := c.reg .rsp
  rip := c.rip

/-- The frame in the slots of a record. -/
def Mctx.frame (c : Mctx) : Frame where
  r12 := c.regs.load (8 * 0) 8
  r13 := c.regs.load (8 * 1) 8
  r14 := c.regs.load (8 * 2) 8
  r15 := c.regs.load (8 * 3) 8
  rip := c.regs.load (8 * 4) 8
  rsp := c.regs.load (8 * 5) 8
  rbx := c.regs.load (8 * 6) 8
  rbp := c.regs.load (8 * 7) 8

theorem Mctx.fresh_rip (func skAddrHi : BitVec 64) :
    (Mctx.fresh func skAddrHi).frame.rip = func := by
  simp only [frame, fresh, Bytes.load_store_self]

theorem Mctx.fresh_rsp (func skAddrHi : BitVec 64) :
    (Mctx.fresh func skAddrHi).frame.rsp = stackTop skAddrHi := by
  simp (disch := omega) only [frame, fresh, Bytes.load_store_of_disjoint, Bytes.load_store_self]

variable {κ : Type*} [DecidableEq κ]

namespace Mach

/-- The return address is read from the stack, and the stack pointer is the one without it. -/
theorem saving_frame (s : Mach κ) (old new : κ) :
    ((s.run old new Instr.saving).mctx old).frame =
      { s.cpu.frame with
        rsp := s.cpu.reg .rsp + 8
        rip := s.mem.load (s.cpu.reg .rsp).toNat 8 } := by
  simp only [run, Instr.saving, List.foldl_cons, List.foldl_nil, Instr.exec, Mctx.frame,
    storeRegs_self]
  simp (disch := omega) only [Bytes.load_store_self, Bytes.load_store_of_disjoint]
  rfl

theorem saving_error (s : Mach κ) (old new : κ) :
    ((s.run old new Instr.saving).mctx old).error = (s.mctx old).error := by
  simp [run, Instr.saving, Instr.exec, storeRegs, setReg]

theorem restoring_frame (s : Mach κ) (old new : κ) :
    (s.run old new Instr.restoring).cpu.frame = (s.mctx new).frame := rfl

/-! ## The macro -/

/-- A `call`, with the address behind it. -/
def call (s : Mach κ) (ret : BitVec 64) : Mach κ :=
  let rsp := s.cpu.reg .rsp - 8
  { s.setReg .rsp rsp with mem := s.mem.store rsp.toNat 8 ret }

/-- The record that is left by a call holds the frame of the caller behind the call. -/
theorem call_saving_frame (s : Mach κ) (old new : κ) (ret : BitVec 64) :
    (((s.call ret).run old new Instr.saving).mctx old).frame =
      { s.cpu.frame with rip := ret } := by
  have hrsp : (s.call ret).cpu.reg .rsp + 8 = s.cpu.reg .rsp := by
    simp only [call, setReg, Function.update_self]
    exact BitVec.sub_add_cancel _ _
  have hret : (s.call ret).mem.load ((s.call ret).cpu.reg .rsp).toNat 8 = ret := by
    simp only [call, setReg, Function.update_self]
    exact Bytes.load_store_self _ _ _ _
  rw [saving_frame, hrsp, hret]
  rfl

def setError (s : Mach κ) (c : κ) (error : ℤ) : Mach κ :=
  { s with mctx := Function.update s.mctx c { s.mctx c with error := error } }

end Mach

/-- The machine with `errno`, and what the records hold. -/
structure CtxRun (κ : Type*) where
  mach : Mach κ
  errno : ℤ
  status : κ → CtxStatus

/-- What the running code does. -/
inductive CtxOp (κ : Type*) where
  /-- It gets memory for a record, with anything in it. -/
  | create (mctx : κ) (contents : Mctx)
  | set (mctx : Option κ) (func skAddrLo skAddrHi : BitVec 64)
  /-- It uses `pth_mctx_switch`, where `ret` is the address behind the call. -/
  | switch (old new : κ) (ret : BitVec 64)
  /-- It does something else, which leaves the records alone. -/
  | code (cpu : Cpu) (mem : Bytes) (errno : ℤ)

/-- The record that an operation is made on. -/
def CtxOp.record : CtxOp κ → Option κ
  | .create mctx _ => some mctx
  | .set mctx _ _ _ => mctx
  | .switch old _ _ => some old
  | .code _ _ _ => none

namespace CtxRun

/-- `pth_mctx_switch(old, new)`, up to where control continues. If that is behind a call that
    was made with `new` as the record to leave, then `errno = (new)->error` follows there, the
    last statement of the macro. -/
def mctxSwitch (s : CtxRun κ) (old new : κ) (ret : BitVec 64) : CtxRun κ :=
  let mach := ((s.mach.setError old s.errno).call ret).mctxSwitchAsm old new
  let status := Function.update s.status old .saved
  let errno := if status new = .saved then (mach.mctx new).error else s.errno
  { mach := mach, errno := errno, status := status }

def exec (s : CtxRun κ) : CtxOp κ → Bool × CtxRun κ
  | .create mctx contents =>
    (true, { s with
      mach := { s.mach with mctx := Function.update s.mach.mctx mctx contents }
      status := Function.update s.status mctx .raw })
  | .set mctx func skAddrLo skAddrHi =>
    let r := s.mach.mctxSet mctx func skAddrLo skAddrHi
    (r.1, { s with mach := r.2, status := fun c =>
      if r.1 = true ∧ mctx = some c then .fresh else s.status c })
  | .switch old new ret => (true, s.mctxSwitch old new ret)
  | .code cpu mem errno =>
    (true, { s with mach := { s.mach with cpu := cpu, mem := mem }, errno := errno })

/-- A switch enters a context that has been set or left, or comes back at once. -/
def enabled (s : CtxRun κ) : CtxOp κ → Prop
  | .switch old new _ => new = old ∨ s.status new ≠ .raw
  | _ => True

def machine : Machine (CtxRun κ) (CtxOp κ) Bool where
  init s := ∀ c, s.status c = .raw
  enabled := enabled
  exec s op := some (s.exec op)

variable {s s' s₁ : CtxRun κ} {old new c : κ} {ret : BitVec 64} {op : CtxOp κ} {b : Bool}

/-! ## A switch -/

/-- The record that is left keeps the frame behind the call, and `errno`. -/
theorem mctxSwitch_old (s : CtxRun κ) (old new : κ) (ret : BitVec 64) :
    ((s.mctxSwitch old new ret).mach.mctx old).frame = { s.mach.cpu.frame with rip := ret } ∧
      ((s.mctxSwitch old new ret).mach.mctx old).error = s.errno ∧
      (s.mctxSwitch old new ret).status old = .saved := by
  refine ⟨?_, ?_, by simp [mctxSwitch]⟩
  · simp only [mctxSwitch]
    rw [Mach.mctxSwitchAsm_eq, Mach.restoring_mctx, Mach.call_saving_frame]
    rfl
  · simp only [mctxSwitch]
    rw [Mach.mctxSwitchAsm_eq, Mach.restoring_mctx, Mach.saving_error]
    simp [Mach.call, Mach.setReg, Mach.setError]

/-- The other records are left alone. -/
theorem mctxSwitch_of_ne (s : CtxRun κ) (new : κ) (ret : BitVec 64) (hc : c ≠ old) :
    (s.mctxSwitch old new ret).mach.mctx c = s.mach.mctx c ∧
      (s.mctxSwitch old new ret).status c = s.status c := by
  refine ⟨?_, by simp [mctxSwitch, hc]⟩
  simp only [mctxSwitch]
  rw [Mach.mctxSwitchAsm_eq, Mach.restoring_mctx, Mach.saving_of_ne hc]
  simp [Mach.call, Mach.setReg, Mach.setError, hc]

/-- Control continues with what the record of the other context holds, which may be the one
    that was just left. -/
theorem mctxSwitch_new (s : CtxRun κ) (old new : κ) (ret : BitVec 64) :
    (s.mctxSwitch old new ret).mach.cpu.frame =
        ((s.mctxSwitch old new ret).mach.mctx new).frame ∧
      ((s.mctxSwitch old new ret).status new = .saved →
        (s.mctxSwitch old new ret).errno = ((s.mctxSwitch old new ret).mach.mctx new).error) := by
  refine ⟨?_, fun hsaved => ?_⟩
  · simp only [mctxSwitch]
    rw [Mach.mctxSwitchAsm_eq, Mach.restoring_frame, Mach.restoring_mctx]
  · simp only [mctxSwitch] at hsaved ⊢
    rw [if_pos hsaved]

/-- The memory apart from the records has the return address, on the stack of the caller. -/
theorem mctxSwitch_mem (s : CtxRun κ) (old new : κ) (ret : BitVec 64) :
    (s.mctxSwitch old new ret).mach.mem =
      s.mach.mem.store (s.mach.cpu.reg .rsp - 8).toNat 8 ret := rfl

/-! ## Runs -/

/-- A context is as it was. -/
def Same (c : κ) (s s' : CtxRun κ) : Prop :=
  s'.mach.mctx c = s.mach.mctx c ∧ s'.status c = s.status c

/-- An operation on another record leaves a context as it was. -/
theorem exec_same (hop : op.record ≠ some c) : Same c s (s.exec op).2 := by
  cases op with
  | create mctx contents =>
    have hne : c ≠ mctx := fun heq => hop (congrArg some heq.symm)
    simp [exec, Same, hne]
  | set mctx func lo hi =>
    rcases s.mach.mctxSet_cases mctx func lo hi with ⟨heq, -⟩ | ⟨d, rfl, -, -, heq⟩
    · simp [exec, heq, Same]
    · have hne : c ≠ d := fun heq => hop (congrArg some heq.symm)
      simp [exec, heq, Same, hne, hne.symm]
  | switch old new ret =>
    exact mctxSwitch_of_ne s new ret fun heq => hop (congrArg some heq.symm)
  | code cpu mem errno => exact ⟨rfl, rfl⟩

/-- So do any number of them. -/
theorem steps_same {l : List (CtxOp κ)} (hl : ∀ op ∈ l, op.record ≠ some c)
    (h : machine.Steps s l s') : Same c s s' := by
  refine h.invariant (I := Same c s) (Q := fun op => op.record ≠ some c) ?_ hl ⟨rfl, rfl⟩
  intro s₁ op b s₂ hsame hop hstep
  have hs₂ : (s₁.exec op).2 = s₂ := congrArg Prod.snd (Option.some.inj hstep.2)
  obtain ⟨hmctx, hstatus⟩ : Same c s₁ s₂ := hs₂ ▸ exec_same hop
  exact ⟨hmctx.trans hsame.1, hstatus.trans hsame.2⟩

/-- Any operations on other records, and then a switch from another context to this one. -/
def Enters (c : κ) (s s' : CtxRun κ) : Prop :=
  ∃ l s₁ old ret b, machine.Steps s l s₁ ∧ (∀ op ∈ l, op.record ≠ some c) ∧ old ≠ c ∧
    machine.Step s₁ (.switch old c ret) b s'

/-- A context is entered with what its record holds. -/
theorem Enters.frame (h : Enters c s s') : s'.mach.cpu.frame = (s.mach.mctx c).frame ∧
    (s.status c = .saved → s'.errno = (s.mach.mctx c).error) := by
  obtain ⟨l, s₁, old, ret, b, hsteps, hl, hold, -, hexec⟩ := h
  have hs' : s₁.mctxSwitch old c ret = s' := congrArg Prod.snd (Option.some.inj hexec)
  obtain ⟨hmctx, hstatus⟩ := steps_same hl hsteps
  obtain ⟨hmctx', hstatus'⟩ : s'.mach.mctx c = s₁.mach.mctx c ∧ s'.status c = s₁.status c :=
    hs' ▸ mctxSwitch_of_ne s₁ c ret hold.symm
  obtain ⟨hframe, herrno⟩ := mctxSwitch_new s₁ old c ret
  rw [hs', hmctx', hmctx] at hframe herrno
  exact ⟨hframe, fun hsaved => herrno (by rw [hstatus', hstatus, hsaved])⟩

/-! ## New contexts -/

/-- Clearing the four lowest bits rounds down to a multiple of 16. -/
theorem toNat_and_not_fifteen (a : BitVec 64) :
    (a &&& ~~~0xF#64).toNat = a.toNat / 16 * 16 := by
  have hshift : a &&& ~~~0xF#64 = (a >>> 4) <<< 4 := by
    refine BitVec.eq_of_getLsbD_eq fun i hi => ?_
    have hmask : (0xF#64).getLsbD i = decide (i < 4) := by
      rw [BitVec.getLsbD_ofNat, show 0xF = 2 ^ 4 - 1 from rfl, Nat.testBit_two_pow_sub_one]
      simp [hi]
    rw [BitVec.getLsbD_and, BitVec.getLsbD_not, hmask, BitVec.getLsbD_shiftLeft,
      BitVec.getLsbD_ushiftRight]
    by_cases hlt : i < 4
    · simp [hlt]
    · have hadd : 4 + (i - 4) = i := by omega
      simp [hi, hlt, hadd]
  rw [hshift, BitVec.toNat_shiftLeft, BitVec.toNat_ushiftRight, Nat.shiftRight_eq_div_pow,
    Nat.shiftLeft_eq]
  exact Nat.mod_eq_of_lt (by omega)

/-- The word at the top of a stack area lies in it. -/
theorem stackTop_spec {lo hi : BitVec 64} (hsize : lo.toNat + 24 ≤ hi.toNat) :
    lo.toNat ≤ (stackTop hi).toNat ∧ (stackTop hi).toNat + 8 ≤ hi.toNat ∧
      (stackTop hi).toNat % 16 = 8 := by
  have hround := toNat_and_not_fifteen hi
  have htop : (stackTop hi).toNat = hi.toNat / 16 * 16 - 8 := by
    rw [stackTop, BitVec.toNat_sub_of_le, hround]
    · rfl
    · rw [BitVec.le_def, hround]
      show 8 ≤ _
      omega
  omega

/-- Apart from the record, `pth_mctx_set` writes in the stack area only. -/
structure WritesInside (s s' : CtxRun κ) (mctx : Option κ) (lo hi : BitVec 64) : Prop where
  mem : ∀ x, x < lo.toNat ∨ hi.toNat ≤ x → s'.mach.mem x = s.mach.mem x
  mctx : ∀ c, mctx ≠ some c → s'.mach.mctx c = s.mach.mctx c
  cpu : s'.mach.cpu = s.mach.cpu
  errno : s'.errno = s.errno

theorem step_set {mctx : Option κ} {func lo hi : BitVec 64}
    (h : machine.Step s (.set mctx func lo hi) b s') :
    s.mach.mctxSet mctx func lo hi = (b, s'.mach) ∧ s'.errno = s.errno := by
  obtain ⟨rfl, rfl⟩ := Prod.mk.inj (Option.some.inj h.2)
  exact ⟨rfl, rfl⟩

theorem set_writesInside {mctx : Option κ} {func lo hi : BitVec 64}
    (hsize : lo.toNat + 24 ≤ hi.toNat) (h : machine.Step s (.set mctx func lo hi) b s') :
    s.WritesInside s' mctx lo hi ∧ (b = true ↔ mctx.isSome ∧ func ≠ 0 ∧ lo ≠ 0) := by
  obtain ⟨hset, herrno⟩ := step_set h
  rcases s.mach.mctxSet_cases mctx func lo hi with ⟨heq, hfail⟩ | ⟨d, rfl, hfunc, hlo, heq⟩
  · obtain ⟨rfl, hmach⟩ := Prod.mk.inj (hset.symm.trans heq)
    refine ⟨⟨by simp [hmach], by simp [hmach], by rw [hmach], herrno⟩,
      iff_of_false Bool.false_ne_true ?_⟩
    rintro ⟨hsome, hfunc, hlo⟩
    rcases hfail with rfl | hnull | hnull | hle
    · simp at hsome
    · exact hfunc hnull
    · exact hlo hnull
    · rw [BitVec.le_def] at hle
      omega
  · obtain ⟨rfl, hmach⟩ := Prod.mk.inj (hset.symm.trans heq)
    obtain ⟨hinside, hinside', -⟩ := stackTop_spec hsize
    refine ⟨⟨fun x hx => ?_, fun c hc => ?_, by rw [hmach], herrno⟩,
      iff_of_true rfl ⟨rfl, hfunc, hlo⟩⟩
    · rw [hmach]
      exact Bytes.store_of_lt (by omega)
    · have hne : c ≠ d := fun heq => hc (congrArg some heq.symm)
      simp [hmach, hne]

theorem set_fresh {func lo hi : BitVec 64} (h : machine.Step s (.set (some c) func lo hi) true s') :
    s'.mach.mctx c = .fresh func hi ∧ s'.mach.mem.load (stackTop hi).toNat 8 = 0 := by
  have hset := (step_set h).1
  rcases s.mach.mctxSet_cases (some c) func lo hi with ⟨heq, -⟩ | ⟨d, hd, -, -, heq⟩
  · simp [heq] at hset
  · obtain rfl := Option.some.inj hd
    obtain ⟨-, hmach⟩ := Prod.mk.inj (hset.symm.trans heq)
    simp only [hmach, Function.update_self, Bytes.load_store_self, and_self]

/-- The start of a new context: at its function, and on its stack. -/
structure Starts (s : CtxRun κ) (func lo hi : BitVec 64) : Prop where
  rip : s.mach.cpu.rip = func
  inside : lo.toNat ≤ (s.mach.cpu.reg .rsp).toNat ∧
    (s.mach.cpu.reg .rsp).toNat + 8 ≤ hi.toNat
  aligned : (s.mach.cpu.reg .rsp).toNat % 16 = 8

/-- The return address is null. -/
def NullReturn (s : CtxRun κ) : Prop := s.mach.mem.load (s.mach.cpu.reg .rsp).toNat 8 = 0

theorem Enters.starts {func lo hi : BitVec 64} (hsize : lo.toNat + 24 ≤ hi.toNat)
    (hset : machine.Step s (.set (some c) func lo hi) true s₁) (h : Enters c s₁ s') :
    s'.Starts func lo hi ∧
      ((∀ x, lo.toNat ≤ x → x < hi.toNat → s'.mach.mem x = s₁.mach.mem x) → s'.NullReturn) := by
  obtain ⟨hfresh, hnull⟩ := set_fresh hset
  obtain ⟨hlo, hhi, haligned⟩ := stackTop_spec hsize
  have hframe := h.frame.1
  have hrip : s'.mach.cpu.rip = func := by
    rw [← Mctx.fresh_rip func hi, ← hfresh, ← hframe]
    rfl
  have hrsp : s'.mach.cpu.reg .rsp = stackTop hi := by
    rw [← Mctx.fresh_rsp func hi, ← hfresh, ← hframe]
    rfl
  refine ⟨⟨hrip, ?_, ?_⟩, fun hmem => ?_⟩
  · rw [hrsp]
    exact ⟨hlo, hhi⟩
  · rw [hrsp, haligned]
  · rw [NullReturn, hrsp, ← hnull]
    exact Bytes.load_congr fun x hx hlt => hmem x (by omega) (by omega)

/-! ## Contexts that were left -/

/-- A context continues behind the call that it made in the state `s`, with the registers, the
    stack pointer and the `errno` of then. -/
structure Resumes (s : CtxRun κ) (ret : BitVec 64) (s' : CtxRun κ) : Prop where
  frame : s'.mach.cpu.frame = { s.mach.cpu.frame with rip := ret }
  errno : s'.errno = s.errno

theorem Enters.resumes (hleft : machine.Step s (.switch c new ret) b s₁) (h : Enters c s₁ s') :
    s.Resumes ret s' := by
  obtain rfl : s.mctxSwitch c new ret = s₁ := congrArg Prod.snd (Option.some.inj hleft.2)
  obtain ⟨hframe, herror, hsaved⟩ := mctxSwitch_old s c new ret
  obtain ⟨hframe', herrno'⟩ := h.frame
  exact ⟨hframe'.trans hframe, (herrno' hsaved).trans herror⟩

/-- So does one that switches to itself. -/
theorem resumes_self (h : machine.Step s (.switch c c ret) b s') : s.Resumes ret s' := by
  obtain rfl : s.mctxSwitch c c ret = s' := congrArg Prod.snd (Option.some.inj h.2)
  obtain ⟨hframe, herror, hsaved⟩ := mctxSwitch_old s c c ret
  obtain ⟨hframe', herrno'⟩ := mctxSwitch_new s c c ret
  exact ⟨hframe'.trans hframe, (herrno' hsaved).trans herror⟩

/-- From any state: `pth_mctx_set` with an area of 24 bytes or more writes inside of it, and
    when the context is entered later it starts at its function with an aligned stack and, if
    the area was not written to in between, a null return address. A context that leaves by a
    switch continues behind it, as it was, whenever it is switched to. -/
theorem starts_and_resumes (s s₁ : CtxRun κ) (b : Bool) :
    (∀ mctx func lo hi, lo.toNat + 24 ≤ hi.toNat → machine.Step s (.set mctx func lo hi) b s₁ →
      s.WritesInside s₁ mctx lo hi ∧ (b = true ↔ mctx.isSome ∧ func ≠ 0 ∧ lo ≠ 0) ∧
      ∀ c s₂, b = true → mctx = some c → Enters c s₁ s₂ → s₂.Starts func lo hi ∧
        ((∀ x, lo.toNat ≤ x → x < hi.toNat → s₂.mach.mem x = s₁.mach.mem x) →
          s₂.NullReturn)) ∧
    ∀ c new ret, machine.Step s (.switch c new ret) b s₁ →
      (new = c → s.Resumes ret s₁) ∧ ∀ s₂, Enters c s₁ s₂ → s.Resumes ret s₂ := by
  refine ⟨fun mctx func lo hi hsize hset => ?_, fun c new ret hleft => ⟨?_, fun s₂ h => ?_⟩⟩
  · obtain ⟨hinside, htrue⟩ := set_writesInside hsize hset
    refine ⟨hinside, htrue, fun c s₂ hb hc h => ?_⟩
    subst hb hc
    exact h.starts hsize hset
  · rintro rfl
    exact resumes_self hleft
  · exact h.resumes hleft

/-- A program on a stack of its own, before it has made a context. -/
def lone : CtxRun Bool where
  mach := { cpu := ⟨fun r => if r = .rsp then 0x9000 else 1, 0, 0x37F, 0x1F80⟩,
            mctx := fun _ => ⟨fun _ => 0, 0, fun _ => false, 0⟩, mem := fun _ => 0 }
  errno := 4
  status _ := .raw

/-- It makes a context and switches to it; the context uses all registers and `errno` for
    itself and switches back. -/
theorem starts_and_resumes_lone :
    let s₁ := (lone.exec (.set (some true) 0x1000 0x2000 0x3000)).2
    let s₂ := (s₁.exec (.switch false true 0x500)).2
    let s₃ := (s₂.exec (.code ⟨fun _ => 7, 7, 7, 7⟩ (fun _ => 7) 7)).2
    let s₄ := (s₃.exec (.switch true false 0x1100)).2
    s₂.Starts 0x1000 0x2000 0x3000 ∧ s₂.NullReturn ∧ s₁.Resumes 0x500 s₄ := by
  intro s₁ s₂ s₃ s₄
  have hset : machine.Step lone (.set (some true) 0x1000 0x2000 0x3000) true s₁ := ⟨trivial, rfl⟩
  have hleft : machine.Step s₁ (.switch false true 0x500) true s₂ := ⟨.inr (by decide), rfl⟩
  have hcode : machine.Step s₂ (.code ⟨fun _ => 7, 7, 7, 7⟩ (fun _ => 7) 7) true s₃ :=
    ⟨trivial, rfl⟩
  have hback : machine.Step s₃ (.switch true false 0x1100) true s₄ := ⟨.inr (by decide), rfl⟩
  obtain ⟨-, -, hstarts⟩ := (starts_and_resumes lone s₁ true).1 _ _ _ _ (by decide) hset
  obtain ⟨hstarts, hnull⟩ := hstarts true s₂ rfl rfl
    ⟨[], s₁, false, 0x500, true, rfl, by simp, by decide, hleft⟩
  have hrsp : (s₁.mach.cpu.reg .rsp - 8).toNat = 0x8FF8 := by decide
  have hmem : ∀ x, 0x2000 ≤ x → x < 0x3000 → s₂.mach.mem x = s₁.mach.mem x := by
    intro x _ hx
    rw [show s₂.mach.mem = _ from mctxSwitch_mem s₁ false true 0x500]
    exact Bytes.store_of_lt (.inl (by omega))
  refine ⟨hstarts, hnull hmem, ((starts_and_resumes s₁ s₂ true).2 _ _ _ hleft).2 s₄ ?_⟩
  exact ⟨[_], s₃, true, 0x1100, true, ⟨true, s₃, hcode, rfl⟩, by simp [CtxOp.record], by decide,
    hback⟩

/-! ## User-space contexts -/

/-- The places that user-space contexts keep are those of the frames in their records, and the
    error numbers are the same under their encoding. -/
structure Shows (place : Frame → Place) (code : Errno → ℤ) (s : CtxRun κ) (u : Uctxs κ) :
    Prop where
  errno : s.errno = code u.errno
  kept : ∀ c p, (u.uctx c).mctx = some p → s.status c = .saved ∧
    place (s.mach.mctx c).frame = p ∧ (s.mach.mctx c).error = code (u.uctx c).error

/-- The switch of `pth_uctx.c` between places is the switch between records. -/
theorem Shows.mctxSwitch {place : Frame → Place} {code : Errno → ℤ} {u u' : Uctxs κ} {p q : Place}
    (h : s.Shows place code u) (hp : place { s.mach.cpu.frame with rip := ret } = p)
    (hu : u.mctxSwitch old new p = some (q, u')) :
    (s.mctxSwitch old new ret).Shows place code u' ∧
      place (s.mctxSwitch old new ret).mach.cpu.frame = q := by
  let u₁ := u.set old { u.uctx old with error := u.errno, mctx := some p }
  obtain ⟨q', hq', heq⟩ : ∃ q', (u₁.uctx new).mctx = some q' ∧
      (q', { u₁ with control := some q', errno := (u₁.uctx new).error }) = (q, u') := by
    simpa [Uctxs.mctxSwitch, Option.map_eq_some_iff] using hu
  obtain ⟨rfl, rfl⟩ := Prod.mk.inj heq
  have hkept : ∀ c r, (u₁.uctx c).mctx = some r → (s.mctxSwitch old new ret).status c = .saved ∧
      place ((s.mctxSwitch old new ret).mach.mctx c).frame = r ∧
      ((s.mctxSwitch old new ret).mach.mctx c).error = code (u₁.uctx c).error := by
    intro c r hr
    by_cases hc : c = old
    · subst hc
      obtain ⟨hframe, herror, hsaved⟩ := mctxSwitch_old s c new ret
      simp only [u₁, Uctxs.set, Function.update_self, Option.some.injEq] at hr ⊢
      rw [hframe, herror, hp, h.errno]
      exact ⟨hsaved, hr, rfl⟩
    · obtain ⟨hmctx, hstatus⟩ := mctxSwitch_of_ne s new ret hc
      simp only [u₁, Uctxs.set, Function.update_of_ne hc] at hr ⊢
      rw [hmctx, hstatus]
      exact h.kept c r hr
  obtain ⟨hsaved, hplace, herror⟩ := hkept new q' hq'
  obtain ⟨hframe, herrno⟩ := mctxSwitch_new s old new ret
  exact ⟨⟨(herrno hsaved).trans herror, hkept⟩, by rw [hframe, hplace]⟩

end CtxRun

end Pth
