-- SUMMARY: The positioned reads and writes of pth_high.c, interleaved on one descriptor.
import Pth.Lib.Machine
import Pth.Sync.Mutex
import Pth.Event.Calls

/-!
# Positioned input and output

`pth_pread` and `pth_pwrite` save the offset of the descriptor, seek, transfer and
restore the offset. The transfer may wait, and then other threads run. Each of the
two functions has a static mutex of its own for that: two calls of the same function
exclude each other, a call of one and a call of the other do not. -/

namespace Pth

/-! ## The file -/

/-- The file behind a descriptor and the offset of the descriptor. -/
structure File where
  data : List UInt8
  offset : ℕ
  seekable : Bool
  deriving DecidableEq, Repr

namespace File

/-- `lseek(fd, 0, SEEK_CUR)`, which fails with `ESPIPE` only. -/
def tell (f : File) : Except Errno ℕ :=
  if f.seekable then .ok f.offset else .error (.other 29)

/-- `lseek(fd, offset, SEEK_SET)` -/
def seek (f : File) (offset : ℤ) : Except Errno File :=
  if !f.seekable then .error (.other 29)
  else if offset < 0 then .error .EINVAL
  else .ok { f with offset := offset.toNat }

/-- A `read(2)` of at most `n` bytes. -/
def read (f : File) (n : ℕ) : List UInt8 × File :=
  let bytes := (f.data.drop f.offset).take n
  (bytes, { f with offset := f.offset + bytes.length })

/-- A `write(2)` that takes all of `bytes`; a gap behind the end of the file is filled. -/
def write (f : File) (bytes : List UInt8) : File :=
  let before := (f.data ++ List.replicate (f.offset - f.data.length) 0).take f.offset
  { f with
    data := before ++ bytes ++ f.data.drop (f.offset + bytes.length)
    offset := f.offset + bytes.length }

end File

/-! ## The calls -/

/-- The static mutexes of the two functions. -/
inductive PosMutex where
  | pread
  | pwrite
  deriving DecidableEq, Repr

/-- A call, with the bytes to write instead of a buffer. -/
inductive PosCall where
  | pread (nbytes : ℕ) (offset : ℤ)
  | pwrite (buf : List UInt8) (offset : ℤ)
  deriving DecidableEq, Repr

namespace PosCall

def offset : PosCall → ℤ
  | .pread _ offset | .pwrite _ offset => offset

def mutex : PosCall → PosMutex
  | .pread _ _ => .pread
  | .pwrite _ _ => .pwrite

end PosCall

/-- How a call gets on: it waits, or returns the bytes it has read or the number of bytes it has
    written. -/
inductive PosOut where
  | waiting
  | pread (r : Except Errno (List UInt8))
  | pwrite (r : Except Errno ℕ)

/-- A call returns `-1`. -/
def PosCall.failed (call : PosCall) (e : Errno) : PosOut :=
  match call with
  | .pread _ _ => .pread (.error e)
  | .pwrite _ _ => .pwrite (.error e)

/-- What the system answers up to the next wait: the mode of the descriptor, the direct poll, and
    the transfer. The last two are the answers that end a loop on `EINTR`. -/
structure PosAnswers where
  fdmode : FdMode
  poll : Except Errno ℕ
  transfer : Except Errno ℕ

/-- Where a thread is: outside of the calls, in `pth_mutex_acquire` at `pth_wait`, or in `pth_read`
    or `pth_write` at `pth_wait`, with `rv` bytes transferred so far. -/
inductive PosPc where
  | idle
  | acquiring (call : PosCall)
  | transferring (call : PosCall) (oldOffset rv : ℕ)
  deriving DecidableEq, Repr

/-- The mutex that is held there. -/
def PosPc.holds : PosPc → Option PosMutex
  | .transferring call _ _ => some call.mutex
  | _ => none

/-- A transfer of some bytes at the offset `pos`, after `rv` bytes that the call has transferred
    before. -/
structure Transfer (τ : Type*) where
  thread : τ
  call : PosCall
  rv : ℕ
  pos : ℕ
  bytes : List UInt8

/-- All threads and the descriptor. The offset at the start, the threads between their seek and
    their restore, the last one first, and the transfers are recorded. -/
structure PosRun (τ : Type*) where
  mem : MutexState τ PosMutex
  file : File
  pc : τ → PosPc
  start : ℕ
  opened : List τ
  transfers : List (Transfer τ)

inductive PosOp (τ : Type*) where
  | call (t : τ) (call : PosCall) (io : PosAnswers)
  | woken (t : τ) (io : PosAnswers)

namespace PosRun

variable {τ : Type*} [DecidableEq τ]

/-- The call has transferred some bytes more. -/
def moved (s : PosRun τ) (t : τ) (call : PosCall) (oldOffset rv : ℕ) (bytes : List UInt8)
    (file : File) : PosRun τ :=
  { s with
    file := file
    pc := Function.update s.pc t (.transferring call oldOffset (rv + bytes.length))
    transfers := s.transfers ++ [⟨t, call, rv, s.file.offset, bytes⟩] }

/-- The end of both functions: restore the old offset situation, unprotect and return. -/
def leave (s : PosRun τ) (t : τ) (call : PosCall) (oldOffset : ℕ) (o : PosOut) :
    Option (PosOut × PosRun τ) :=
  -- whether this `lseek` fails is not looked at
  let file := match s.file.seek oldOffset with
    | .ok file => file
    | .error _ => s.file
  (s.mem.release t (some call.mutex)).map fun r =>
    (o, { s with
      mem := r.2, file := file, pc := Function.update s.pc t .idle, opened := s.opened.erase t })

/-- The `read(2)` of `pth_read`, and the rest of `pth_pread`. -/
def readNow (s : PosRun τ) (t : τ) (nbytes : ℕ) (offset : ℤ) (oldOffset rv : ℕ)
    (io : PosAnswers) : Option (PosOut × PosRun τ) :=
  let call := PosCall.pread nbytes offset
  match io.transfer with
  | .error e => s.leave t call oldOffset (call.failed e)
  | .ok n =>
    let r := s.file.read (min n nbytes)
    (s.moved t call oldOffset rv r.1 r.2).leave t call oldOffset (.pread (.ok r.1))

/-- `pth_read` inside of `pth_pread`, up to its return or its wait. -/
def read (s : PosRun τ) (t : τ) (nbytes : ℕ) (offset : ℤ) (oldOffset : ℕ) (io : PosAnswers) :
    Option (PosOut × PosRun τ) :=
  let call := PosCall.pread nbytes offset
  if nbytes = 0 then s.leave t call oldOffset (.pread (.ok []))
  else
    match io.fdmode with
    | .error => s.leave t call oldOffset (call.failed .EBADF)
    | .block =>
      match io.poll with
      | .error e =>
        if e = .EINVAL ∨ e = .EBADF then s.leave t call oldOffset (call.failed e)
        else s.readNow t nbytes offset oldOffset 0 io
      | .ok 0 => some (.waiting, s)
      | .ok _ => s.readNow t nbytes offset oldOffset 0 io
    | _ => s.readNow t nbytes offset oldOffset 0 io

/-- A `write(2)` of `pth_write`, and the rest of `pth_pwrite` unless the call has to iterate,
    which it does only if the descriptor was in blocking mode. -/
def writeNow (s : PosRun τ) (t : τ) (buf : List UInt8) (offset : ℤ) (oldOffset rv : ℕ)
    (iterate : Bool) (io : PosAnswers) : Option (PosOut × PosRun τ) :=
  let call := PosCall.pwrite buf offset
  match io.transfer with
  | .error e =>
    -- pass error to caller, but not for partial writes
    s.leave t call oldOffset (if rv = 0 then call.failed e else .pwrite (.ok rv))
  | .ok n =>
    let bytes := (buf.drop rv).take n
    let s' := s.moved t call oldOffset rv bytes (s.file.write bytes)
    if iterate ∧ 0 < bytes.length ∧ rv + bytes.length < buf.length then some (.waiting, s')
    else s'.leave t call oldOffset (.pwrite (.ok (rv + bytes.length)))

/-- `pth_write` inside of `pth_pwrite`, up to its return or its first wait. -/
def write (s : PosRun τ) (t : τ) (buf : List UInt8) (offset : ℤ) (oldOffset : ℕ)
    (io : PosAnswers) : Option (PosOut × PosRun τ) :=
  let call := PosCall.pwrite buf offset
  if buf.length = 0 then s.leave t call oldOffset (.pwrite (.ok 0))
  else
    match io.fdmode with
    | .error => s.leave t call oldOffset (call.failed .EBADF)
    | .nonblock => s.writeNow t buf offset oldOffset 0 false io
    | _ =>
      match io.poll with
      | .error e =>
        if e = .EINVAL ∨ e = .EBADF then s.leave t call oldOffset (call.failed e)
        else some (.waiting, s)
      | .ok 0 => some (.waiting, s)
      | .ok _ => s.writeNow t buf offset oldOffset 0 true io

/-- One of the first two `lseek` calls has failed. -/
def fail (s : PosRun τ) (t : τ) (call : PosCall) (e : Errno) : Option (PosOut × PosRun τ) :=
  (s.mem.release t (some call.mutex)).map fun r =>
    (call.failed e, { s with mem := r.2, pc := Function.update s.pc t .idle })

/-- `pth_pread` or `pth_pwrite` once the mutex is held. -/
def enter (s : PosRun τ) (t : τ) (call : PosCall) (io : PosAnswers) :
    Option (PosOut × PosRun τ) :=
  match s.file.tell with
  | .error e => s.fail t call e
  | .ok oldOffset =>
    match s.file.seek call.offset with
    | .error e => s.fail t call e
    | .ok file =>
      let s' := { s with
        file := file
        pc := Function.update s.pc t (.transferring call oldOffset 0)
        opened := t :: s.opened }
      match call with
      | .pread nbytes offset => s'.read t nbytes offset oldOffset io
      | .pwrite buf offset => s'.write t buf offset oldOffset io

/-- `pth_mutex_acquire` has come as far as `r`. -/
def acquired (s : PosRun τ) (t : τ) (call : PosCall) (io : PosAnswers)
    (r : Acquire PosMutex × MutexState τ PosMutex) : Option (PosOut × PosRun τ) :=
  match r.1 with
  | .waiting _ =>
    some (.waiting, { s with mem := r.2, pc := Function.update s.pc t (.acquiring call) })
  | .returned .ok => enter { s with mem := r.2 } t call io
  | .returned (.error e) =>
    some (call.failed e, { s with mem := r.2, pc := Function.update s.pc t .idle })

def exec (s : PosRun τ) : PosOp τ → Option (PosOut × PosRun τ)
  | .call t call io => (s.mem.acquire t (some call.mutex) false).bind (s.acquired t call io)
  | .woken t io =>
    match s.pc t with
    | .idle => none
    | .acquiring call =>
      (s.mem.acquireWoken t call.mutex false false).bind (s.acquired t call io)
    | .transferring (.pread nbytes offset) oldOffset rv =>
      s.readNow t nbytes offset oldOffset rv io
    | .transferring (.pwrite buf offset) oldOffset rv =>
      s.writeNow t buf offset oldOffset rv true io

/-- A thread calls only when it is not inside a call. -/
def enabled (s : PosRun τ) : PosOp τ → Prop
  | .call t _ _ => s.pc t = .idle
  | .woken t _ => s.pc t ≠ .idle

omit [DecidableEq τ] in
instance (s : PosRun τ) : (op : PosOp τ) → Decidable (s.enabled op)
  | .call t _ _ => inferInstanceAs (Decidable (s.pc t = .idle))
  | .woken t _ => inferInstanceAs (Decidable (s.pc t ≠ .idle))

/-- Nobody has called yet. -/
def init (s : PosRun τ) : Prop :=
  (∀ m, s.mem.mutex m = Mutex.init) ∧ (∀ t, s.mem.mutexring t = Ring.init) ∧
    (∀ t, s.pc t = .idle) ∧ s.file.offset = s.start ∧ s.opened = [] ∧ s.transfers = []

/-- The machine of all threads that call on the descriptor. -/
def machine : Machine (PosRun τ) (PosOp τ) PosOut where
  init := init
  enabled := enabled
  exec := exec

instance (s : PosRun τ) (op : PosOp τ) : Decidable (machine.enabled s op) :=
  inferInstanceAs (Decidable (s.enabled op))

/-- A thread goes on with its transfer only while no call of the other function has begun after
    it and is still open. -/
def innermost (s : PosRun τ) : PosOp τ → Prop
  | .call _ _ _ => True
  | .woken t _ => ∀ m ∈ (s.pc t).holds, s.opened.head?.bind (fun u => (s.pc u).holds) = some m

omit [DecidableEq τ] in
instance (s : PosRun τ) : (op : PosOp τ) → Decidable (s.innermost op)
  | .call _ _ _ => inferInstanceAs (Decidable True)
  | .woken t _ => inferInstanceAs (Decidable (∀ m ∈ (s.pc t).holds, _))

/-! ## The mutexes -/

/-- Each mutex is locked once, by the thread that `holds` says, or free. -/
structure Guarded (mem : MutexState τ PosMutex) (holds : τ → Option PosMutex) : Prop where
  wf : mem.WellFormed
  owner : ∀ m t, (mem.mutex m).mxOwner = some t ↔ holds t = some m
  count : ∀ m, (mem.mutex m).mxOwner ≠ none → (mem.mutex m).mxCount = 1

variable {mem mem' : MutexState τ PosMutex} {holds : τ → Option PosMutex} {t : τ} {m : PosMutex}

/-- One mutex goes to a thread, or back from it, and no other thread or mutex is concerned. -/
theorem Guarded.owner_update (h : Guarded mem holds) {y : Mutex τ} {o : Option PosMutex}
    (hm : ∀ u, (mem.mutex m).mxOwner = some u → u = t) (ht : ∀ x, holds t = some x → x = m)
    (ho : ∀ x, o = some x → x = m) (hy : ∀ u, y.mxOwner = some u ↔ u = t ∧ o = some m)
    (x : PosMutex) (u : τ) :
    (Function.update mem.mutex m y x).mxOwner = some u ↔ Function.update holds t o u = some x := by
  have hown := h.owner x u
  by_cases hx : x = m <;> by_cases hu : u = t
  · simp [hx, hu, hy]
  · subst hx
    simpa [hu, hy] using fun hh => hu (hm u (hown.mpr hh))
  · subst hu
    rw [Function.update_of_ne hx, Function.update_self, hown]
    exact iff_of_false (fun hh => hx (ht x hh)) fun hh => hx (ho x hh)
  · simpa [hx, hu] using hown

theorem Guarded.taken (h : Guarded mem holds) (ht : holds t = none)
    (hm : (mem.mutex m).mxOwner = none) (htaken : mem.Taken mem' t m) :
    Guarded mem' (Function.update holds t (some m)) where
  wf := htaken.wf
  owner := by
    rw [htaken.mutex]
    exact h.owner_update (by simp [hm]) (by simp [ht]) (by simp) (by simp [eq_comm])
  count x hne := by
    rw [htaken.mutex] at hne ⊢
    by_cases hx : x = m
    · obtain ⟨held, hinv⟩ := h.wf
      simp [hx, (hinv.ok m).count_zero hm]
    · rw [Function.update_of_ne hx] at hne ⊢
      exact h.count x hne

theorem Guarded.release (h : Guarded mem holds) (ht : holds t = some m) :
    ∃ mem', mem.release t (some m) = some (.ok, mem') ∧
      Guarded mem' (Function.update holds t none) := by
  have hm := (h.owner m t).mpr ht
  have hcount := h.count m (by simp [hm])
  obtain ⟨mem', hrel, hgiven⟩ := h.wf.release_owned hm
  have hmutex := hgiven.mutex
  rw [if_pos hcount] at hmutex
  refine ⟨mem', hrel, hgiven.wf, ?_, fun x hne => ?_⟩
  · rw [hmutex]
    exact h.owner_update (by simp [hm, eq_comm]) (by simp [ht, eq_comm]) nofun (by simp)
  · rw [hmutex] at hne ⊢
    by_cases hx : x = m
    · simp [hx] at hne
    · rw [Function.update_of_ne hx] at hne ⊢
      exact h.count x hne

/-! ## The offsets -/

/-- The offset of the descriptor while the threads of the list, the last one first, are between
    seek and restore: where the last one transfers, and what it has saved is the offset for the
    others. -/
def Nested (pc : τ → PosPc) (start : ℕ) : List τ → ℕ → Prop
  | [], offset => offset = start
  | t :: l, offset => ∃ call oldOffset rv, pc t = .transferring call oldOffset rv ∧
      (offset : ℤ) = call.offset + rv ∧ Nested pc start l oldOffset

omit [DecidableEq τ] in
theorem Nested.mem_holds {pc : τ → PosPc} {start offset : ℕ} {l : List τ}
    (h : Nested pc start l offset) (ht : t ∈ l) : (pc t).holds ≠ none := by
  induction l generalizing offset with
  | nil => cases ht
  | cons u l ih =>
    obtain ⟨call, oldOffset, rv, hpc, -, hl⟩ := h
    rcases List.mem_cons.mp ht with rfl | ht
    · simp [hpc, PosPc.holds]
    · exact ih hl ht

theorem Nested.update {pc : τ → PosPc} {start offset : ℕ} {l : List τ} (p : PosPc)
    (h : Nested pc start l offset) (ht : t ∉ l) :
    Nested (Function.update pc t p) start l offset := by
  induction l generalizing offset with
  | nil => exact h
  | cons u l ih =>
    obtain ⟨call, oldOffset, rv, hpc, hoff, hl⟩ := h
    rw [List.mem_cons, not_or] at ht
    refine ⟨call, oldOffset, rv, ?_, hoff, ih hl ht.2⟩
    rw [Function.update_of_ne (fun heq => ht.1 heq.symm), hpc]

/-- Every transfer so far was made where its call had asked for it, and the offset goes back to
    the one at the start when the open calls are left one after the other. -/
structure Inv (s : PosRun τ) : Prop where
  guarded : Guarded s.mem fun t => (s.pc t).holds
  nodup : s.opened.Nodup
  seekable : s.opened ≠ [] → s.file.seekable = true
  nested : Nested s.pc s.start s.opened s.file.offset
  transfers : ∀ x ∈ s.transfers, (x.pos : ℤ) = x.call.offset + x.rv

omit [DecidableEq τ] in
theorem Inv.init {s : PosRun τ} (h : s.init) : s.Inv := by
  obtain ⟨hmutex, hring, hpc, hstart, hopened, htransfers⟩ := h
  refine ⟨⟨⟨_, MutexState.Inv.init hmutex hring⟩, ?_, ?_⟩, ?_, ?_, ?_, ?_⟩
  · simp [hmutex, hpc, Mutex.init, PosPc.holds]
  · simp [hmutex, Mutex.init]
  · simp [hopened]
  · simp [hopened]
  · simpa [hopened, Nested] using hstart
  · simp [htransfers]

variable {s : PosRun τ} {l : List τ} {call : PosCall} {oldOffset rv : ℕ} {io : PosAnswers}

theorem holds_update (pc : τ → PosPc) (t : τ) (p : PosPc) :
    (fun u => (Function.update pc t p u).holds) =
      Function.update (fun u => (pc u).holds) t p.holds := by
  funext u
  by_cases hu : u = t
  · subst hu
    simp
  · simp [hu]

/-- The call that has begun last gets on with its transfer. -/
theorem Inv.moved (h : s.Inv) (hopened : s.opened = t :: l)
    (hpc : s.pc t = .transferring call oldOffset rv) (bytes : List UInt8) (file : File)
    (hoffset : file.offset = s.file.offset + bytes.length)
    (hseekable : file.seekable = s.file.seekable) :
    (s.moved t call oldOffset rv bytes file).Inv where
  guarded := by
    have hguarded := h.guarded
    have hsame : (PosPc.transferring call oldOffset (rv + bytes.length)).holds =
        (s.pc t).holds := by
      rw [hpc]
      rfl
    simpa only [PosRun.moved, holds_update, hsame, Function.update_eq_self] using hguarded
  nodup := h.nodup
  seekable hne := hseekable.trans (h.seekable hne)
  nested := by
    have hnested := h.nested
    have hnodup := h.nodup
    rw [hopened] at hnested hnodup
    obtain ⟨call', oldOffset', rv', hpc', hoff, hl⟩ := hnested
    obtain ⟨rfl, rfl, rfl⟩ : call = call' ∧ oldOffset = oldOffset' ∧ rv = rv' := by
      simpa using hpc.symm.trans hpc'
    simp only [PosRun.moved, hopened]
    refine ⟨call, oldOffset, rv + bytes.length, by simp, ?_,
      hl.update _ (List.nodup_cons.mp hnodup).1⟩
    rw [hoffset]
    push_cast
    omega
  transfers x hx := by
    have hnested := h.nested
    rw [hopened] at hnested
    obtain ⟨call', oldOffset', rv', hpc', hoff, -⟩ := hnested
    obtain ⟨rfl, -, rfl⟩ : call = call' ∧ oldOffset = oldOffset' ∧ rv = rv' := by
      simpa using hpc.symm.trans hpc'
    rcases List.mem_append.mp hx with hx | hx
    · exact h.transfers x hx
    · obtain rfl := List.mem_singleton.mp hx
      exact hoff

/-- The call that has begun last restores the offset and returns. -/
theorem Inv.leave (h : s.Inv) (hopened : s.opened = t :: l)
    (hpc : s.pc t = .transferring call oldOffset rv) (o : PosOut) :
    ∃ s', s.leave t call oldOffset o = some (o, s') ∧ s'.Inv := by
  have hholds : (s.pc t).holds = some call.mutex := by rw [hpc]; rfl
  obtain ⟨mem', hrel, hguarded⟩ := h.guarded.release hholds
  have hseekable : s.file.seekable = true := h.seekable (by simp [hopened])
  have hseek : s.file.seek oldOffset = .ok { s.file with offset := oldOffset } := by
    simp [File.seek, hseekable]
  have hnodup := h.nodup
  have hnested := h.nested
  rw [hopened] at hnested hnodup
  obtain ⟨call', oldOffset', rv', hpc', -, hl⟩ := hnested
  obtain ⟨-, rfl, -⟩ : call = call' ∧ oldOffset = oldOffset' ∧ rv = rv' := by
    simpa using hpc.symm.trans hpc'
  have herase : s.opened.erase t = l := by rw [hopened, List.erase_cons_head]
  have hleave : s.leave t call oldOffset o = some (o, { s with
      mem := mem', file := { s.file with offset := oldOffset },
      pc := Function.update s.pc t .idle, opened := s.opened.erase t }) := by
    simp only [PosRun.leave, hrel, hseek, Option.map_some]
  refine ⟨_, hleave, ?_, ?_, fun _ => hseekable, ?_, h.transfers⟩
  · rw [holds_update]
    exact hguarded
  · rw [herase]
    exact (List.nodup_cons.mp hnodup).2
  · simp only [herase]
    exact hl.update _ (List.nodup_cons.mp hnodup).1

theorem Inv.readNow {nbytes : ℕ} {offset : ℤ} (h : s.Inv) (hopened : s.opened = t :: l)
    (hpc : s.pc t = .transferring (.pread nbytes offset) oldOffset rv) :
    ∃ o s', s.readNow t nbytes offset oldOffset rv io = some (o, s') ∧ s'.Inv := by
  unfold PosRun.readNow
  cases io.transfer with
  | error e => exact ⟨_, h.leave hopened hpc _⟩
  | ok n =>
    have hmoved := h.moved hopened hpc (s.file.read (min n nbytes)).1
      (s.file.read (min n nbytes)).2 rfl rfl
    exact ⟨_, hmoved.leave hopened (Function.update_self ..) _⟩

theorem Inv.read {nbytes : ℕ} {offset : ℤ} (h : s.Inv) (hopened : s.opened = t :: l)
    (hpc : s.pc t = .transferring (.pread nbytes offset) oldOffset 0) :
    ∃ o s', s.read t nbytes offset oldOffset io = some (o, s') ∧ s'.Inv := by
  have hnow : ∃ o s', s.readNow t nbytes offset oldOffset 0 io = some (o, s') ∧ s'.Inv :=
    h.readNow hopened hpc
  unfold PosRun.read
  by_cases hzero : nbytes = 0
  · rw [if_pos hzero]
    exact ⟨_, h.leave hopened hpc _⟩
  rw [if_neg hzero]
  cases io.fdmode with
  | error => exact ⟨_, h.leave hopened hpc _⟩
  | poll => exact hnow
  | nonblock => exact hnow
  | block =>
    match io.poll with
    | .error e =>
      by_cases he : e = .EINVAL ∨ e = .EBADF
      · simp only [if_pos he]
        exact ⟨_, h.leave hopened hpc _⟩
      · simp only [if_neg he]
        exact hnow
    | .ok 0 => exact ⟨_, s, rfl, h⟩
    | .ok (_ + 1) => exact hnow

theorem Inv.writeNow {buf : List UInt8} {offset : ℤ} (h : s.Inv) (hopened : s.opened = t :: l)
    (hpc : s.pc t = .transferring (.pwrite buf offset) oldOffset rv) (iterate : Bool) :
    ∃ o s', s.writeNow t buf offset oldOffset rv iterate io = some (o, s') ∧ s'.Inv := by
  unfold PosRun.writeNow
  cases io.transfer with
  | error e => exact ⟨_, h.leave hopened hpc _⟩
  | ok n =>
    have hmoved := h.moved hopened hpc ((buf.drop rv).take n)
      (s.file.write ((buf.drop rv).take n)) rfl rfl
    dsimp only
    split
    · exact ⟨_, _, rfl, hmoved⟩
    · exact ⟨_, hmoved.leave hopened (Function.update_self ..) _⟩

theorem Inv.write {buf : List UInt8} {offset : ℤ} (h : s.Inv) (hopened : s.opened = t :: l)
    (hpc : s.pc t = .transferring (.pwrite buf offset) oldOffset 0) :
    ∃ o s', s.write t buf offset oldOffset io = some (o, s') ∧ s'.Inv := by
  have hpolled : ∃ o s', (match io.poll with
      | .error e =>
        if e = .EINVAL ∨ e = .EBADF then
          s.leave t (.pwrite buf offset) oldOffset (PosCall.failed (.pwrite buf offset) e)
        else some (.waiting, s)
      | .ok 0 => some (.waiting, s)
      | .ok _ => s.writeNow t buf offset oldOffset 0 true io) = some (o, s') ∧ s'.Inv := by
    match io.poll with
    | .error e =>
      by_cases he : e = .EINVAL ∨ e = .EBADF
      · simp only [if_pos he]
        exact ⟨_, h.leave hopened hpc _⟩
      · simp only [if_neg he]
        exact ⟨_, s, rfl, h⟩
    | .ok 0 => exact ⟨_, s, rfl, h⟩
    | .ok (_ + 1) => exact h.writeNow hopened hpc true
  unfold PosRun.write
  by_cases hzero : buf.length = 0
  · rw [if_pos hzero]
    exact ⟨_, h.leave hopened hpc _⟩
  rw [if_neg hzero]
  cases io.fdmode with
  | error => exact ⟨_, h.leave hopened hpc _⟩
  | nonblock => exact h.writeNow hopened hpc false
  | poll => exact hpolled
  | block => exact hpolled

/-! ## Runs -/

/-- A call that has got its mutex begins, on top of those that are open. -/
theorem Inv.enter {mem' : MutexState τ PosMutex} (h : s.Inv) (ht : (s.pc t).holds = none)
    (hm : (s.mem.mutex call.mutex).mxOwner = none) (htaken : s.mem.Taken mem' t call.mutex) :
    ∃ o s', enter { s with mem := mem' } t call io = some (o, s') ∧ s'.Inv := by
  have hguarded := h.guarded.taken ht hm htaken
  have hnot : t ∉ s.opened := fun hmem => h.nested.mem_holds hmem ht
  have hfail : ∀ e, ∃ o s', fail { s with mem := mem' } t call e = some (o, s') ∧ s'.Inv := by
    intro e
    obtain ⟨mem'', hrel, hguarded'⟩ := hguarded.release (Function.update_self ..)
    have hfail : fail { s with mem := mem' } t call e = some (call.failed e, { s with
        mem := mem'', pc := Function.update s.pc t .idle }) := by
      simp only [fail, hrel, Option.map_some]
    refine ⟨_, _, hfail, ?_, h.nodup, h.seekable, h.nested.update _ hnot, h.transfers⟩
    rw [Function.update_idem] at hguarded'
    rw [holds_update]
    exact hguarded'
  unfold PosRun.enter
  by_cases hseekable : s.file.seekable = true
  · by_cases hneg : call.offset < 0
    · simpa [File.tell, File.seek, hseekable, hneg] using hfail .EINVAL
    have hinv : Inv { s with
        mem := mem'
        file := { s.file with offset := call.offset.toNat }
        pc := Function.update s.pc t (.transferring call s.file.offset 0)
        opened := t :: s.opened } := by
      refine ⟨?_, List.nodup_cons.mpr ⟨hnot, h.nodup⟩, fun _ => hseekable, ?_, h.transfers⟩
      · rw [holds_update]
        exact hguarded
      · refine ⟨call, s.file.offset, 0, Function.update_self .., ?_, h.nested.update _ hnot⟩
        simp only [Nat.cast_zero, add_zero]
        omega
    have htell : s.file.tell = .ok s.file.offset := by simp [File.tell, hseekable]
    have hseek : s.file.seek call.offset =
        .ok { s.file with offset := call.offset.toNat } := by
      simp [File.seek, hseekable, hneg]
    simp only [htell, hseek]
    cases call with
    | pread nbytes offset => exact hinv.read rfl (Function.update_self ..)
    | pwrite buf offset => exact hinv.write rfl (Function.update_self ..)
  · simpa [File.tell, hseekable] using hfail (.other 29)

/-- `pth_mutex_acquire` gets on by one step. -/
theorem Inv.acquired {o : Acquire PosMutex} {mem' : MutexState τ PosMutex} (h : s.Inv)
    (ht : (s.pc t).holds = none)
    (hres : o = .returned .ok ∧ (s.mem.mutex call.mutex).mxOwner = none ∧
        s.mem.Taken mem' t call.mutex ∨ o ≠ .returned .ok ∧ mem' = s.mem) :
    ∃ o' s', s.acquired t call io (o, mem') = some (o', s') ∧ s'.Inv := by
  have hstay : ∀ p : PosPc, p.holds = none →
      Inv { s with pc := Function.update s.pc t p } := by
    intro p hp
    have hnot : t ∉ s.opened := fun hmem => h.nested.mem_holds hmem ht
    refine ⟨?_, h.nodup, h.seekable, h.nested.update _ hnot, h.transfers⟩
    have hguarded := h.guarded
    simpa only [holds_update, hp, ← ht, Function.update_eq_self] using hguarded
  rcases hres with ⟨rfl, hm, htaken⟩ | ⟨hne, rfl⟩
  · exact h.enter ht hm htaken
  · cases o with
    | waiting m => exact ⟨_, _, rfl, hstay _ rfl⟩
    | returned r =>
      cases r with
      | ok => exact absurd rfl hne
      | error e => exact ⟨_, _, rfl, hstay _ rfl⟩

omit [DecidableEq τ] in
/-- A thread that goes on with its transfer is the one that has begun last: a call of the same
    function cannot have begun after it, since it holds the mutex. -/
theorem Inv.opened_eq (h : s.Inv) (hpc : s.pc t = .transferring call oldOffset rv)
    (hP : s.innermost (.woken t io)) : ∃ l, s.opened = t :: l := by
  have ht : (s.pc t).holds = some call.mutex := by rw [hpc]; rfl
  have hhead := hP _ ht
  cases hopened : s.opened with
  | nil => simp [hopened] at hhead
  | cons u l =>
    have hu : (s.pc u).holds = some call.mutex := by simpa [hopened] using hhead
    have hown := (h.guarded.owner _ _).mpr ht
    rw [(h.guarded.owner _ _).mpr hu] at hown
    obtain rfl := Option.some.inj hown
    exact ⟨l, rfl⟩

/-- Every enabled operation that meets the condition succeeds and keeps the invariant. -/
theorem Inv.exec {op : PosOp τ} (h : s.Inv) (hen : s.enabled op) (hP : s.innermost op) :
    ∃ o s', s.exec op = some (o, s') ∧ s'.Inv := by
  cases op with
  | call t call io =>
    have ht : (s.pc t).holds = none := by
      rw [show s.pc t = .idle from hen]
      rfl
    obtain ⟨o, mem', hacq, hres⟩ := h.guarded.wf.acquire t (some call.mutex) false
    simp only [PosRun.exec, hacq, Option.bind_some]
    refine h.acquired ht ?_
    rcases hres with ⟨rfl, m, hm, htaken⟩ | hres
    · obtain rfl := Option.some.inj hm
      refine Or.inl ⟨rfl, ?_, htaken⟩
      rcases htaken.owner with hnone | hown
      · exact hnone
      · rw [(h.guarded.owner _ _).mp hown] at ht
        cases ht
    · exact Or.inr hres
  | woken t io =>
    cases hpc : s.pc t with
    | idle => exact absurd hpc hen
    | acquiring call =>
      obtain ⟨o, mem', hacq, hres⟩ := h.guarded.wf.acquireWoken t call.mutex false false
      simp only [PosRun.exec, hpc, hacq, Option.bind_some]
      exact h.acquired (by rw [hpc]; rfl) hres
    | transferring call oldOffset rv =>
      obtain ⟨l, hopened⟩ := h.opened_eq hpc hP
      cases call with
      | pread nbytes offset =>
        simp only [PosRun.exec, hpc]
        exact h.readNow hopened hpc
      | pwrite buf offset =>
        simp only [PosRun.exec, hpc]
        exact h.writeNow hopened hpc true

theorem Inv.reach (h : machine.Reach innermost s) : s.Inv := by
  refine Machine.Reach.invariant (fun _ => Inv.init) ?_ h
  rintro s op o s' hinv hP ⟨hen, hexec⟩
  obtain ⟨o', s'', hexec', hinv'⟩ := hinv.exec hen hP
  obtain ⟨-, rfl⟩ : o = o' ∧ s' = s'' := by simpa using hexec.symm.trans hexec'
  exact hinv'

/-- In every run in which a thread goes on with its transfer only while no call of the other
    function has begun after it and is still open, every call transfers its data at the offset
    it was given, and when all calls have returned the offset is the one from before. No call
    faults. -/
theorem positioned_atomic (h : machine.Reach innermost s) :
    (∀ x ∈ s.transfers, (x.pos : ℤ) = x.call.offset + x.rv) ∧
    ((∀ t, s.pc t = .idle) → s.file.offset = s.start) ∧
    ∀ op, s.enabled op → s.innermost op → ∃ o s', s.exec op = some (o, s') := by
  have hinv := Inv.reach h
  refine ⟨hinv.transfers, fun hidle => ?_, fun op hen hP => ?_⟩
  · have hnested := hinv.nested
    cases hopened : s.opened with
    | nil =>
      rw [hopened] at hnested
      exact hnested
    | cons t l =>
      have ht := hinv.nested.mem_holds (t := t) (by simp [hopened])
      simp [hidle, PosPc.holds] at ht
  · obtain ⟨o, s', hexec, -⟩ := hinv.exec hen hP
    exact ⟨o, s', hexec⟩

/-- A file of four bytes with the offset at `1`, and nobody has called yet. -/
def four : PosRun Bool where
  mem := { mutex := fun _ => Mutex.init, node := ⟨fun _ => none, fun _ => none⟩,
           mutexring := fun _ => Ring.init }
  file := ⟨[10, 11, 12, 13], 1, true⟩
  pc _ := .idle
  start := 1
  opened := []
  transfers := []

theorem four_init : machine.init four :=
  ⟨fun _ => rfl, fun _ => rfl, fun _ => rfl, rfl, rfl, rfl⟩

/-- A write that begins and returns while a read waits. -/
theorem positioned_atomic_nested : ∃ s : PosRun Bool, machine.Reach innermost s ∧
    s.file = ⟨[20, 11, 12, 13], 1, true⟩ ∧ s.transfers.length = 2 ∧
    (∀ x ∈ s.transfers, (x.pos : ℤ) = x.call.offset + x.rv) ∧
    ((∀ t, s.pc t = .idle) → s.file.offset = s.start) := by
  obtain ⟨s, hs, hfile, hlength⟩ := (Machine.Reach.init (M := machine) four_init).play
    (l := [.call false (.pread 2 2) ⟨.block, .ok 0, .ok 2⟩,
      .call true (.pwrite [20] 0) ⟨.nonblock, .ok 1, .ok 1⟩, .woken false ⟨.block, .ok 0, .ok 2⟩])
    (P := innermost)
    (p := fun s => s.file = ⟨[20, 11, 12, 13], 1, true⟩ ∧ s.transfers.length = 2) (by decide)
  obtain ⟨htransfers, hoffset, -⟩ := positioned_atomic hs
  exact ⟨s, hs, hfile, hlength, htransfers, hoffset⟩

/-- The read at offset `2` waits, then the write at offset `0` waits. The read goes on and reads
    at offset `0`, and the write then writes at offset `1`. Both have returned, and the offset
    is `2`. -/
theorem positioned_atomic_overlap : ∃ s : PosRun Bool, machine.Reachable s ∧
    (∀ t, s.pc t = .idle) ∧ s.file = ⟨[10, 20, 12, 13], 2, true⟩ ∧ s.start = 1 ∧
    s.transfers.map (fun x => (x.call, x.pos, x.bytes)) =
      [(.pread 2 2, 0, [10, 11]), (.pwrite [20] 0, 1, [20])] :=
  (Machine.Reach.init (M := machine) four_init).play
    (l := [.call false (.pread 2 2) ⟨.block, .ok 0, .ok 2⟩,
      .call true (.pwrite [20] 0) ⟨.block, .ok 0, .ok 1⟩, .woken false ⟨.block, .ok 0, .ok 2⟩,
      .woken true ⟨.block, .ok 0, .ok 1⟩]) (by decide)

end PosRun

end Pth
