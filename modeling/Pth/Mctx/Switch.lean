-- SUMMARY: Machine contexts: pth_mctx_set of pth_mctx.c and the instructions of pth_mctx_swap.S.
import Pth.Lib.Bytes
import Pth.Sched.State

/-!
# Machine contexts

A context is a record with room for the registers that a function call keeps. The
C code fills the slots of `regs` by their number; the assembly addresses the same
bytes by displacement. The assembly is modelled as its list of instructions. -/

namespace Pth

/-- `struct pth_mctx_st`. The bytes of `regs` are those at `0` to `71`. -/
structure Mctx where
  regs : Bytes
  startFunc : BitVec 64
  sigs : SigSet
  error : ℤ

/-- The registers of the assembly, apart from `rdi` and `rsi`, which hold its arguments. -/
inductive Reg where
  | rax
  | rcx
  | rdx
  | rbx
  | rsp
  | rbp
  | r12
  | r13
  | r14
  | r15
  deriving DecidableEq, Repr

structure Cpu where
  reg : Reg → BitVec 64
  rip : BitVec 64
  fpucw : BitVec 16
  mxcsr : BitVec 32

/-- The processor, the contexts `κ` and the rest of the memory. -/
structure Mach (κ : Type*) where
  cpu : Cpu
  mctx : κ → Mctx
  mem : Bytes

/-- The instructions that the assembly uses, in the order of their operands. -/
inductive Instr where
  /-- `mov dst, QWORD PTR [base]` -/
  | load (dst base : Reg)
  /-- `lea dst, [base+disp]` -/
  | lea (dst base : Reg) (disp : ℕ)
  /-- `mov QWORD PTR [rdi+disp], src` -/
  | save (disp : ℕ) (src : Reg)
  /-- `fnstcw WORD PTR [rdi+disp]` -/
  | fnstcw (disp : ℕ)
  /-- `stmxcsr DWORD PTR [rdi+disp]` -/
  | stmxcsr (disp : ℕ)
  /-- `mov dst, QWORD PTR [rsi+disp]` -/
  | restore (dst : Reg) (disp : ℕ)
  /-- `fldcw WORD PTR [rsi+disp]`, without the reserved bit 6, which reads as 1 -/
  | fldcw (disp : ℕ)
  /-- `ldmxcsr DWORD PTR [rsi+disp]` -/
  | ldmxcsr (disp : ℕ)
  /-- `mov dst, src` -/
  | mov (dst src : Reg)
  /-- `jmp src` -/
  | jmp (src : Reg)
  deriving DecidableEq, Repr

variable {κ : Type*} [DecidableEq κ]

namespace Mach

def setReg (s : Mach κ) (r : Reg) (v : BitVec 64) : Mach κ :=
  { s with cpu := { s.cpu with reg := Function.update s.cpu.reg r v } }

/-- Write a word of `n` bytes into the `regs` of a context. -/
def storeRegs (s : Mach κ) (c : κ) (disp n : ℕ) (v : BitVec (8 * n)) : Mach κ :=
  { s with
    mctx := Function.update s.mctx c
      { s.mctx c with regs := (s.mctx c).regs.store disp n v } }

end Mach

namespace Instr

/-- What an instruction does, with the contexts that `rdi` and `rsi` point to. -/
def exec (old new : κ) (s : Mach κ) : Instr → Mach κ
  | .load dst base => s.setReg dst (s.mem.load (s.cpu.reg base).toNat 8)
  | .lea dst base disp => s.setReg dst (s.cpu.reg base + BitVec.ofNat 64 disp)
  | .save disp src => s.storeRegs old disp 8 (s.cpu.reg src)
  | .fnstcw disp => s.storeRegs old disp 2 s.cpu.fpucw
  | .stmxcsr disp => s.storeRegs old disp 4 s.cpu.mxcsr
  | .restore dst disp => s.setReg dst ((s.mctx new).regs.load disp 8)
  | .fldcw disp => { s with cpu := { s.cpu with fpucw := (s.mctx new).regs.load disp 2 } }
  | .ldmxcsr disp => { s with cpu := { s.cpu with mxcsr := (s.mctx new).regs.load disp 4 } }
  | .mov dst src => s.setReg dst (s.cpu.reg src)
  | .jmp src => { s with cpu := { s.cpu with rip := s.cpu.reg src } }

/-- The first half of `pth_mctx_switch_asm`: save the registers, the FPU control word and
    MXCSR. -/
def saving : List Instr :=
  [.load .rdx .rsp, .lea .rcx .rsp 0x8,
    .save 0x0 .r12, .save 0x8 .r13, .save 0x10 .r14, .save 0x18 .r15,
    .save 0x20 .rdx, .save 0x28 .rcx, .save 0x30 .rbx, .save 0x38 .rbp,
    .fnstcw 0x40, .stmxcsr 0x44]

/-- The second half: restore them, switch stack and jump to the return address. -/
def restoring : List Instr :=
  [.restore .r12 0x0, .restore .r13 0x8, .restore .r14 0x10, .restore .r15 0x18,
    .restore .rax 0x20, .restore .rcx 0x28, .restore .rbx 0x30, .restore .rbp 0x38,
    .fldcw 0x40, .ldmxcsr 0x44,
    .mov .rsp .rcx, .jmp .rax]

end Instr

namespace Mach

def run (s : Mach κ) (old new : κ) (l : List Instr) : Mach κ :=
  l.foldl (Instr.exec old new) s

/-- `pth_mctx_switch_asm` -/
def mctxSwitchAsm (s : Mach κ) (old new : κ) : Mach κ :=
  s.run old new (Instr.saving ++ Instr.restoring)

/-- `pth_mctx_set`, where the null pointer is `0`. -/
def mctxSet (s : Mach κ) (mctx : Option κ) (func skAddrLo skAddrHi : BitVec 64) :
    Bool × Mach κ :=
  match mctx with
  | none => (false, s)
  | some c =>
    if func = 0 ∨ skAddrLo = 0 ∨ skAddrHi = 0 then (false, s)
    else if skAddrHi ≤ skAddrLo then (false, s)
    else
      let stackTop := (skAddrHi &&& ~~~0xF#64) - 8
      -- the record is cleared before its slots 5 and 4 are written
      let regs : Bytes := fun _ => 0
      let regs := (regs.store (8 * 5) 8 stackTop).store (8 * 4) 8 func
      (true,
        { s with
          mem := s.mem.store stackTop.toNat 8 0
          mctx := Function.update s.mctx c
            { regs := regs, startFunc := func, sigs := fun _ => false, error := 0 } })

end Mach

/-! ## Setting a context -/

/-- Where `pth_mctx_set` puts the null return address of a context. -/
def stackTop (skAddrHi : BitVec 64) : BitVec 64 := (skAddrHi &&& ~~~0xF#64) - 8

/-- The record of a context that was set and has not been left yet. -/
def Mctx.fresh (func skAddrHi : BitVec 64) : Mctx where
  regs := Bytes.store (Bytes.store (fun _ => 0) (8 * 5) 8 (stackTop skAddrHi)) (8 * 4) 8 func
  startFunc := func
  sigs := fun _ => false
  error := 0

namespace Mach

/-- `pth_mctx_set` fails and changes nothing, or it writes the record and the return address. -/
theorem mctxSet_cases (s : Mach κ) (mctx : Option κ) (func skAddrLo skAddrHi : BitVec 64) :
    (s.mctxSet mctx func skAddrLo skAddrHi = (false, s) ∧
      (mctx = none ∨ func = 0 ∨ skAddrLo = 0 ∨ skAddrHi ≤ skAddrLo)) ∨
    ∃ c, mctx = some c ∧ func ≠ 0 ∧ skAddrLo ≠ 0 ∧
      s.mctxSet mctx func skAddrLo skAddrHi = (true, { s with
        mem := s.mem.store (stackTop skAddrHi).toNat 8 0
        mctx := Function.update s.mctx c (.fresh func skAddrHi) }) := by
  unfold mctxSet
  cases mctx with
  | none => exact .inl ⟨rfl, .inl rfl⟩
  | some c =>
    dsimp only
    split_ifs with hnull hle
    · refine .inl ⟨rfl, ?_⟩
      rcases hnull with hfunc | hlo | hhi
      · exact .inr (.inl hfunc)
      · exact .inr (.inr (.inl hlo))
      · exact .inr (.inr (.inr (by bv_omega)))
    · exact .inl ⟨rfl, .inr (.inr (.inr hle))⟩
    · push Not at hnull
      exact .inr ⟨c, rfl, hnull.1, hnull.2.1, rfl⟩

/-! ## The control words -/

/-- The FPU control word and MXCSR in effect. -/
def fp (s : Mach κ) : BitVec 16 × BitVec 32 := (s.cpu.fpucw, s.cpu.mxcsr)

end Mach

/-- Those that a context holds in slot 8. -/
def Mctx.fp (c : Mctx) : BitVec 16 × BitVec 32 := (c.regs.load 0x40 2, c.regs.load 0x44 4)

theorem Mctx.fresh_fp (func skAddrHi : BitVec 64) : (Mctx.fresh func skAddrHi).fp = (0, 0) := by
  simp (disch := omega) only [Mctx.fp, Mctx.fresh, Bytes.load_store_of_disjoint]
  decide

namespace Mach

variable {s : Mach κ} {old new c : κ}

theorem storeRegs_self {disp n : ℕ} {v : BitVec (8 * n)} :
    ((s.storeRegs c disp n v).mctx c).regs = (s.mctx c).regs.store disp n v := by
  simp [storeRegs]

theorem storeRegs_of_ne {disp n : ℕ} {v : BitVec (8 * n)} (hc : c ≠ old) :
    (s.storeRegs old disp n v).mctx c = s.mctx c := by
  simp [storeRegs, hc]

/-- The context that is left holds the control words in effect. -/
theorem saving_fp (s : Mach κ) (old new : κ) :
    ((s.run old new Instr.saving).mctx old).fp = s.fp := by
  simp only [run, Instr.saving, List.foldl_cons, List.foldl_nil, Instr.exec, Mctx.fp,
    storeRegs_self]
  rw [Bytes.load_store_self, Bytes.load_store_of_disjoint (by omega), Bytes.load_store_self]
  rfl

/-- The other contexts are left alone. -/
theorem saving_of_ne (hc : c ≠ old) : (s.run old new Instr.saving).mctx c = s.mctx c := by
  simp only [run, Instr.saving, List.foldl_cons, List.foldl_nil, Instr.exec, storeRegs_of_ne hc]
  rfl

theorem restoring_mctx (s : Mach κ) (old new : κ) :
    (s.run old new Instr.restoring).mctx = s.mctx := rfl

/-- The control words of the context that is entered are in effect. -/
theorem restoring_fp (s : Mach κ) (old new : κ) :
    (s.run old new Instr.restoring).fp = (s.mctx new).fp := rfl

theorem mctxSwitchAsm_eq (s : Mach κ) (old new : κ) :
    s.mctxSwitchAsm old new = (s.run old new Instr.saving).run old new Instr.restoring := by
  rw [mctxSwitchAsm, run, List.foldl_append]
  rfl

/-- After a switch the control words in effect are those of the context that is entered, which
    are the ones from before if it is the one that was left. -/
theorem mctxSwitchAsm_fp (s : Mach κ) (old new : κ) :
    (s.mctxSwitchAsm old new).fp = if new = old then s.fp else (s.mctx new).fp := by
  rw [mctxSwitchAsm_eq, restoring_fp]
  by_cases hnew : new = old
  · rw [if_pos hnew, hnew, saving_fp]
  · rw [if_neg hnew, saving_of_ne hnew]

theorem mctxSwitchAsm_mctx_fp (s : Mach κ) (old new c : κ) :
    ((s.mctxSwitchAsm old new).mctx c).fp = if c = old then s.fp else (s.mctx c).fp := by
  rw [mctxSwitchAsm_eq, restoring_mctx]
  by_cases hc : c = old
  · rw [if_pos hc, hc, saving_fp]
  · rw [if_neg hc, saving_of_ne hc]

/-- `pth_mctx_set` does not touch the control words in effect. -/
theorem mctxSet_fp (s : Mach κ) (mctx : Option κ) (func skAddrLo skAddrHi : BitVec 64) :
    (s.mctxSet mctx func skAddrLo skAddrHi).2.fp = s.fp := by
  rcases s.mctxSet_cases mctx func skAddrLo skAddrHi with ⟨heq, -⟩ | ⟨d, -, -, -, heq⟩
  · rw [heq]
  · rw [heq]
    rfl

/-- A context that has been set holds zero for both. -/
theorem mctxSet_mctx_fp (s : Mach κ) (mctx : Option κ) (func skAddrLo skAddrHi : BitVec 64)
    (c : κ) : ((s.mctxSet mctx func skAddrLo skAddrHi).2.mctx c).fp =
      if (s.mctxSet mctx func skAddrLo skAddrHi).1 = true ∧ mctx = some c then (0, 0)
      else (s.mctx c).fp := by
  rcases s.mctxSet_cases mctx func skAddrLo skAddrHi with ⟨heq, -⟩ | ⟨d, rfl, -, -, heq⟩
  · simp [heq]
  · rw [heq]
    by_cases hc : c = d
    · subst hc
      simp [Mctx.fresh_fp]
    · have hd : d ≠ c := fun heq => hc heq.symm
      simp [hc, hd]

end Mach

end Pth
