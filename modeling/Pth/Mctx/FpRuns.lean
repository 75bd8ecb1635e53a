-- SUMMARY: When the floating-point control words survive any sequence of new contexts and switches.
import Pth.Lib.Machine
import Pth.Mctx.Switch

/-!
# Control words across contexts

`pth_mctx_set` clears the whole record, and `pth_mctx_switch_asm` loads the FPU control
word and MXCSR from its slot 8. A context that a switch has left holds the words of the
code that was running; a context that has never run holds zero. The words are compared as they
were loaded: that the reserved bit 6 of the FPU control word reads as 1, also after 0 has been
loaded, is left out. -/

namespace Pth

/-- What a context record holds: nothing yet, a context made by `pth_mctx_set`, or one that a
    switch has left. -/
inductive CtxStatus where
  | raw
  | fresh
  | saved
  deriving DecidableEq, Repr

structure FpRun (κ : Type*) where
  mach : Mach κ
  status : κ → CtxStatus

/-- Setting a context, a switch, or code of the running context, which changes registers and
    memory but not the control words. -/
inductive FpOp (κ : Type*) where
  | set (mctx : Option κ) (func skAddrLo skAddrHi : BitVec 64)
  | switch (old new : κ)
  | code (reg : Reg → BitVec 64) (rip : BitVec 64) (mem : Bytes)

namespace FpRun

variable {κ : Type*} [DecidableEq κ]

def exec (s : FpRun κ) : FpOp κ → Option (Bool × FpRun κ)
  | .set mctx func skAddrLo skAddrHi =>
    let r := s.mach.mctxSet mctx func skAddrLo skAddrHi
    some (r.1, { mach := r.2, status := fun c =>
      if r.1 = true ∧ mctx = some c then .fresh else s.status c })
  | .switch old new =>
    some (true, {
      mach := s.mach.mctxSwitchAsm old new, status := Function.update s.status old .saved })
  | .code reg rip mem =>
    some (true, { s with
      mach := { s.mach with cpu := { s.mach.cpu with reg := reg, rip := rip }, mem := mem } })

/-- A switch enters a context that has been set or left, or comes back at once. -/
def enabled (s : FpRun κ) : FpOp κ → Prop
  | .switch old new => new = old ∨ s.status new ≠ .raw
  | _ => True

instance (s : FpRun κ) : (op : FpOp κ) → Decidable (s.enabled op)
  | .switch old new => inferInstanceAs (Decidable (new = old ∨ s.status new ≠ .raw))
  | .set _ _ _ _ | .code _ _ _ => inferInstanceAs (Decidable True)

/-- The machine that starts with the control words `w` and `m`. -/
def machine (w : BitVec 16) (m : BitVec 32) : Machine (FpRun κ) (FpOp κ) Bool where
  init s := s.mach.fp = (w, m) ∧ ∀ c, s.status c = .raw
  enabled := enabled
  exec := exec

instance (w : BitVec 16) (m : BitVec 32) (s : FpRun κ) (op : FpOp κ) :
    Decidable ((machine w m).enabled s op) := inferInstanceAs (Decidable (s.enabled op))

/-- A switch enters a context for the first time only if both control words are zero. -/
def entersSaved (s : FpRun κ) : FpOp κ → Prop
  | .switch old new => new = old ∨ s.status new ≠ .fresh ∨ s.mach.fp = (0, 0)
  | _ => True

variable {w : BitVec 16} {m : BitVec 32} {s : FpRun κ}

/-- The control words in effect and those of the contexts. -/
structure Inv (w : BitVec 16) (m : BitVec 32) (s : FpRun κ) : Prop where
  fp : s.mach.fp = (w, m)
  saved : ∀ c, s.status c = .saved → (s.mach.mctx c).fp = (w, m)
  fresh : ∀ c, s.status c = .fresh → (s.mach.mctx c).fp = (0, 0)

omit [DecidableEq κ] in
theorem Inv.init (h : s.mach.fp = (w, m) ∧ ∀ c, s.status c = .raw) : s.Inv w m :=
  ⟨h.1, by simp [h.2], by simp [h.2]⟩

/-- A switch keeps the control words exactly if it meets the condition. -/
theorem Inv.switch_fp {old new : κ} (h : s.Inv w m) (hen : s.enabled (.switch old new)) :
    (s.mach.mctxSwitchAsm old new).fp = (w, m) ↔ s.entersSaved (.switch old new) := by
  rw [Mach.mctxSwitchAsm_fp]
  by_cases hnew : new = old
  · simp [hnew, h.fp, entersSaved]
  have hraw : s.status new ≠ .raw := hen.resolve_left hnew
  rw [if_neg hnew]
  simp only [entersSaved, hnew, false_or, h.fp]
  cases hstatus : s.status new with
  | raw => exact absurd hstatus hraw
  | fresh =>
    rw [h.fresh new hstatus]
    exact ⟨fun heq => Or.inr heq.symm, fun hP => (hP.resolve_left (by simp)).symm⟩
  | saved => simp [h.saved new hstatus]

/-- After an operation a context is new, or it was just left, or it is as before. -/
theorem exec_ctx {op : FpOp κ} {o : Bool} {s' : FpRun κ} (h : s.exec op = some (o, s')) (c : κ) :
    s'.status c = .fresh ∧ (s'.mach.mctx c).fp = (0, 0) ∨
      s'.status c = .saved ∧ (s'.mach.mctx c).fp = s.mach.fp ∨
      s'.status c = s.status c ∧ (s'.mach.mctx c).fp = (s.mach.mctx c).fp := by
  cases op with
  | set mctx func lo hi =>
    obtain ⟨-, rfl⟩ := Prod.mk.inj (Option.some.inj h)
    by_cases hset : (s.mach.mctxSet mctx func lo hi).1 = true ∧ mctx = some c
    · exact .inl ⟨if_pos hset, by rw [Mach.mctxSet_mctx_fp, if_pos hset]⟩
    · exact .inr (.inr ⟨if_neg hset, by rw [Mach.mctxSet_mctx_fp, if_neg hset]⟩)
  | switch old new =>
    obtain ⟨-, rfl⟩ := Prod.mk.inj (Option.some.inj h)
    rw [Mach.mctxSwitchAsm_mctx_fp]
    by_cases hold : c = old
    · exact .inr (.inl ⟨by simp [hold], if_pos hold⟩)
    · exact .inr (.inr ⟨Function.update_of_ne hold _ _, if_neg hold⟩)
  | code reg rip mem =>
    obtain ⟨-, rfl⟩ := Prod.mk.inj (Option.some.inj h)
    exact .inr (.inr ⟨rfl, rfl⟩)

/-- An operation that keeps the control words leaves the right ones in the contexts. -/
theorem Inv.exec {op : FpOp κ} {o : Bool} {s' : FpRun κ} (h : s.Inv w m)
    (hexec : s.exec op = some (o, s')) (hfp : s'.mach.fp = (w, m)) : s'.Inv w m := by
  refine ⟨hfp, fun c hc => ?_, fun c hc => ?_⟩
  · rcases exec_ctx hexec c with ⟨hstatus, -⟩ | ⟨-, heq⟩ | ⟨hstatus, heq⟩
    · simp [hstatus] at hc
    · rw [heq, h.fp]
    · rw [heq, h.saved c (hstatus ▸ hc)]
  · rcases exec_ctx hexec c with ⟨-, heq⟩ | ⟨hstatus, -⟩ | ⟨hstatus, heq⟩
    · exact heq
    · simp [hstatus] at hc
    · rw [heq, h.fresh c (hstatus ▸ hc)]

/-- A step keeps the control words exactly if it meets the condition, and then the contexts hold
    what they should. -/
theorem Inv.step {op : FpOp κ} {o : Bool} {s' : FpRun κ} (h : s.Inv w m)
    (hs : (machine w m).Step s op o s') :
    (s'.mach.fp = (w, m) ↔ s.entersSaved op) ∧ (s.entersSaved op → s'.Inv w m) := by
  have hiff : s'.mach.fp = (w, m) ↔ s.entersSaved op := by
    obtain ⟨hen, hexec⟩ := hs
    cases op with
    | set mctx func lo hi =>
      obtain ⟨-, rfl⟩ := Prod.mk.inj (Option.some.inj hexec)
      exact iff_of_true ((Mach.mctxSet_fp _ _ _ _ _).trans h.fp) trivial
    | switch old new =>
      obtain ⟨-, rfl⟩ := Prod.mk.inj (Option.some.inj hexec)
      exact h.switch_fp hen
    | code reg rip mem =>
      obtain ⟨-, rfl⟩ := Prod.mk.inj (Option.some.inj hexec)
      exact iff_of_true h.fp trivial
  exact ⟨hiff, fun hP => h.exec hs.2 (hiff.mpr hP)⟩

/-- In every run in which no context is entered for the first time, or both control words are
    zero, the control words in effect are the ones from the start; and the first step that does
    not meet this loses them. -/
theorem fp_preserved_iff (h : (machine w m).Reach entersSaved s) :
    s.mach.fp = (w, m) ∧ ∀ op o s', (machine w m).Step s op o s' →
      (s'.mach.fp = (w, m) ↔ s.entersSaved op) := by
  have hinv : s.Inv w m := Machine.Reach.invariant (fun _ => Inv.init)
    (fun _ _ _ _ hinv hP hs => (hinv.step hs).2 hP) h
  exact ⟨hinv.fp, fun op o s' hs => (hinv.step hs).1⟩

/-- The usual control words, and no context yet. -/
def usual : FpRun Bool where
  mach := { cpu := ⟨fun _ => 0, 0, 0x37F, 0x1F80⟩,
            mctx := fun _ => ⟨fun _ => 0, 0, fun _ => false, 0⟩, mem := fun _ => 0 }
  status _ := .raw

theorem usual_init : (machine 0x37F 0x1F80).init usual := ⟨rfl, fun _ => rfl⟩

instance (s : FpRun κ) : (op : FpOp κ) → Decidable (s.entersSaved op)
  | .switch old new =>
    inferInstanceAs (Decidable (new = old ∨ s.status new ≠ .fresh ∨ s.mach.fp = (0, 0)))
  | .set _ _ _ _ | .code _ _ _ => inferInstanceAs (Decidable True)

/-- A context saved by a switch to itself is entered by another one. -/
theorem fp_preserved_iff_saved : ∃ s : FpRun Bool, (machine 0x37F 0x1F80).Reach entersSaved s ∧
    s.status true = .saved ∧ s.mach.fp = (0x37F, 0x1F80) := by
  obtain ⟨s, hs, hsaved⟩ := (Machine.Reach.init (M := machine 0x37F 0x1F80) usual_init).play
    (P := entersSaved) (l := [.switch true true, .switch false true])
    (p := fun s => s.status true = .saved) (by decide)
  exact ⟨s, hs, hsaved, (fp_preserved_iff hs).1⟩

/-- The first switch to a new context loads zero into both control words. -/
theorem fp_preserved_iff_fresh : ∃ s : FpRun Bool, (machine 0x37F 0x1F80).Reachable s ∧
    s.mach.fp = (0, 0) :=
  (Machine.Reach.init (M := machine 0x37F 0x1F80) usual_init).play
    (l := [.set (some true) 0x1000 0x2000 0x3000, .switch false true]) (by decide)

end FpRun

end Pth
