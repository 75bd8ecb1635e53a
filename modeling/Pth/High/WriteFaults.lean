-- SUMMARY: The temporary vector of pth_writev_ev can be overrun, and what has been written is not always reported.
import Pth.High.WriteRuns

/-!
# Overrun vectors and lost counts

Two faults of the writing functions, which only show after a partial write. `pth_writev_ev` compares
a number of elements with a number of bytes when it chooses its temporary vector, so that the
vector on the stack is used for more elements than it has. And all three functions return `EINTR`
when an extra event ends a sleep, also when a part of the data has been written before. -/

namespace Pth.WriteM

open FdM (InRange)

variable {δ : Type} {D : Source δ} {n : ℕ} {fd : ℤ} {extra : Bool} {mode : FdMode}

/-! ## Calls that only write one byte at a time -/

theorem inNonblock_of_not_inRange (hfd : ¬ InRange fd) {body : FdMode → WriteM Leave}
    (s : FdState) : inNonblock fd body s = ([], some (.error .EBADF, s)) := by
  have henter : (FdM.enter fd).run s = some (none, s) := by
    have hvalid : (FdM.valid fd).run s = some (false, s) := by simp [FdM.valid, StateT.run, hfd]
    rw [FdM.enter, StateT.run_bind, hvalid]
    rfl
  exact Logged.lift_bind_run henter

theorem inNonblock_run (hfd : InRange fd) (body : FdMode → WriteM Leave) (k : ℕ) :
    inNonblock fd body ⟨k, .blocking⟩ = ((body .block ⟨k, .nonblocking⟩).1,
      (body .block ⟨k, .nonblocking⟩).2.bind fun x => (FdM.finish .block x.1).run x.2) := by
  have henter : (FdM.enter fd).run ⟨k, .blocking⟩ = some (some .block, ⟨k, .nonblocking⟩) := by
    rw [FdM.enter_run, if_pos hfd]
  rw [inNonblock, Logged.lift_bind_run henter]
  cases hbody : (body .block ⟨k, .nonblocking⟩).2 with
  | none => exact Logged.bind_run_none (Prod.ext rfl hbody)
  | some x =>
    refine (Logged.bind_run_some (Prod.ext rfl hbody)).trans ?_
    simp [Logged.lift]

theorem scRetry_oneByte (occurred : Bool) (given : List Iovec) (s : FdState) :
    scRetry (oneByte occurred) given (n + 1) s =
      ([.wrote given (.ok 1)], some (.ok 1, { s with asked := s.asked + 1 })) := rfl

/-- The first byte is written, and there is more. -/
theorem writeLoop_oneByte (D : Source δ) (n : ℕ) (extra : Bool) (k : ℕ) {nbytes : ℕ}
    (h : 2 ≤ nbytes) (occurred : Bool) (d : δ) (s : FdState) :
    ∃ out, out = writeLoop D (oneByte occurred) (n + 1) extra mode k true (nbytes - 1) 1
        (D.advance 1 d).1 { s with asked := s.asked + 1 } ∧
      writeLoop D (oneByte occurred) (n + 1) extra mode (k + 1) false nbytes 0 d s =
        (.wrote (D.given d) (.ok 1) :: ((D.advance 1 d).2.map .touched ++ out.1), out.2) := by
  have hpartial : 0 < 1 ∧ 1 < nbytes := ⟨Nat.one_pos, h⟩
  refine ⟨_, rfl, ?_⟩
  conv_lhs => unfold writeLoop
  rw [Logged.bind_run_some (m := sleepIf (oneByte occurred) extra false) rfl]
  rw [if_neg (by simp), Logged.bind_run_some (scRetry_oneByte occurred (D.given d) s)]
  dsimp only
  simp only [if_pos hpartial]
  rfl

/-- The extra event has occurred before the second byte. -/
theorem writeLoop_cut (D : Source δ) (n : ℕ) {nbytes : ℕ} (h : 2 ≤ nbytes) (d : δ)
    (s : FdState) :
    ∃ s', writeLoop D (oneByte false) (n + 1) true mode 2 false nbytes 0 d s =
      (.wrote (D.given d) (.ok 1) :: ((D.advance 1 d).2.map .touched ++ [.slept true]),
        some (.returns (.error .EINTR), s')) := by
  obtain ⟨out, hout, hrun⟩ := writeLoop_oneByte D n true 1 h false d s
  rw [hrun, hout]
  exact ⟨_, rfl⟩

theorem pollWrite_oneByte (occurred sleeps : Bool) (nbytes : ℕ) (d : δ) (s : FdState) :
    pollWrite D (oneByte occurred) (n + 1) extra mode sleeps nbytes d s =
      writeLoop D (oneByte occurred) (n + 1) extra mode (n + 1) false nbytes 0 d
        { s with asked := s.asked + 1 } := by
  have hselect : (FdM.scRetry (oneByte occurred) (n + 1)).run s =
      some (.ok 1, { s with asked := s.asked + 1 }) := rfl
  exact Logged.lift_bind_run hselect

theorem writevPolled_oneByte (n : ℕ) (extra occurred : Bool) (iov : List Iovec)
    (tiov : ℕ → Iovec) (s : FdState) :
    ∃ s', writevPolled (oneByte occurred) (n + 1) extra mode iov tiov s =
      writeLoop (.vector iov.length) (oneByte occurred) (n + 1) extra mode (n + 1) false
        (iovBytes iov) 0 ((Iovs.init iov tiov).advance iov.length 0).1 s' := by
  have hmalloc : ∃ s', StateT.run (if iov.length > tiovStack then
      (oneByte occurred).malloc <$> FdM.ask else pure true) s = some (true, s') := by
    split
    · exact ⟨_, rfl⟩
    · exact ⟨s, rfl⟩
  obtain ⟨s', hs'⟩ := hmalloc
  exact ⟨{ s' with asked := s'.asked + 1 }, Logged.lift_bind_run hs'⟩

/-! ## The temporary vector -/

/-- How many elements `tiov` has: as many as are allocated, or those of `tiov_stack`. -/
def tiovCapacity (iovcnt : ℕ) : ℕ := if iovcnt > tiovStack then uioMaxiov else 32

/-- The element is in the temporary vector, if that is where it is looked for. -/
def Within (capacity : ℕ) : WriteEntry → Prop
  | .touched t => t.array = .tiov → t.index < capacity
  | _ => True

instance (capacity : ℕ) : DecidablePred (Within capacity)
  | .touched t => inferInstanceAs (Decidable (t.array = .tiov → t.index < capacity))
  | .wrote _ _ => .isTrue trivial
  | .slept _ => .isTrue trivial

/-- Only a partial write leads to the vector, which has to be large enough then. -/
theorem within_rule {capacity riovcnt : ℕ} : LoopRule (.vector riovcnt) extra
    (Logged.check (Within capacity))
    (fun nbytes _ x _ => nbytes < 2 ∨ x.Stands riovcnt ∧ riovcnt ≤ capacity)
    (fun _ nbytes _ x _ => nbytes < 2 ∨ x.Stands riovcnt ∧ riovcnt ≤ capacity)
    fun _ _ => True where
  refused _ _ := trivial
  empty _ := trivial
  slept h := ⟨_, rfl, h⟩
  interrupted _ _ := ⟨(), rfl, trivial⟩
  wrote _ h := ⟨_, rfl, h⟩
  again h := h
  failed _ := trivial
  ended _ := trivial
  advanced := by
    rintro nbytes rv x q s hs hlt (hbytes | ⟨hx, hle⟩)
    · omega
    · obtain ⟨hstands, -, htouches⟩ := x.advance_spec (fun _ => 0) hx hs
      refine ⟨(), Logged.foldlM_check ?_ q, .inr ⟨hstands, hle⟩⟩
      intro e he
      obtain ⟨t, ht, rfl⟩ := List.mem_map.mp he
      exact fun _ => Nat.lt_of_lt_of_le (htouches t ht).1 hle

/-- After the first partial write the whole vector is copied. -/
theorem copied_of_advance {x : Iovs} {riovcnt i s : ℕ} (hliov : x.liov = some (.riov, 0))
    (hcnt : x.liovcnt = riovcnt) (hs : 0 < s) (hi : i < riovcnt) :
    ⟨.tiov, i, true⟩ ∈ (x.advance riovcnt s).2 := by
  rw [Iovs.advance_real hliov hcnt hs]
  refine List.mem_append_left _ (List.mem_flatMap.mpr ⟨i, List.mem_range.mpr hi, ?_⟩)
  simp

theorem writevEv_copies {iov : List Iovec} (hfd : InRange fd) (hmax : iov.length ≤ uioMaxiov)
    (hbytes : 2 ≤ iovBytes iov) (extra : Bool) {i : ℕ}
    (hi : i < iov.length) : .touched ⟨.tiov, i, true⟩ ∈
      (writevEv (oneByte true) 1 fd iov default extra ⟨0, .blocking⟩).1 := by
  rw [writevEv, if_neg (by omega), inNonblock_run hfd]
  obtain ⟨s, hs⟩ := writevPolled_oneByte 0 extra true iov default ⟨0, .nonblocking⟩
  obtain ⟨out, -, hout⟩ := writeLoop_oneByte (.vector iov.length) 0 extra 0 hbytes true
    ((Iovs.init iov default).advance iov.length 0).1 s
  rw [if_pos (by simp), hs, hout]
  refine .tail _ (List.mem_append_left _ (List.mem_map.mpr ⟨_, ?_, rfl⟩))
  exact copied_of_advance rfl rfl Nat.one_pos hi

/-- The temporary vector of `pth_writev_ev` is large enough unless the vector on the stack is used
    for more than its 32 elements, and there is something left after a partial write. -/
theorem tiov_inRange_iff (fd : ℤ) (iov : List Iovec) (extra : Bool) :
    (∀ w n s tiov t, .touched t ∈ (writevEv w n fd iov tiov extra s).1 → t.array = .tiov →
      t.index < tiovCapacity iov.length) ↔
    ¬ InRange fd ∨ iov.length = 0 ∨ uioMaxiov < iov.length ∨ iov.length ≤ 32 ∨
      tiovStack < iov.length ∨ iovBytes iov < 2 := by
  constructor
  · intro h
    by_contra hcond
    simp only [not_or, not_not, Nat.not_lt, Nat.not_le] at hcond
    obtain ⟨hfd, -, hmax, hstack, halloc, hbytes⟩ := hcond
    have hover := h (oneByte true) 1 ⟨0, .blocking⟩ default ⟨.tiov, 32, true⟩
      (writevEv_copies hfd hmax hbytes extra hstack) rfl
    rw [tiovCapacity, if_neg (by omega)] at hover
    exact absurd hover (Nat.lt_irrefl 32)
  · intro hcond w n s tiov t ht htiov
    by_cases hrefused : iov.length = 0 ∨ iov.length > uioMaxiov
    · rw [writevEv, if_pos hrefused] at ht
      cases ht
    · by_cases hfd : InRange fd
      · have hle : iovBytes iov < 2 ∨ iov.length ≤ tiovCapacity iov.length := by
          have hlarge := hcond.resolve_left (not_not.mpr hfd)
          rw [tiovCapacity]
          split <;> omega
        have hstart := hle.imp_right (And.intro (Iovs.advance_init iov tiov).1)
        obtain ⟨q, hlog, -⟩ := writevEv_watched within_rule tiov () s hstart
        exact Logged.forall_of_check hlog _ ht htiov
      · rw [writevEv, if_neg hrefused, inNonblock_of_not_inRange hfd] at ht
        cases ht

/-- 33 chunks of one byte each, of which the first is written alone. -/
theorem tiov_overrun : .touched ⟨.tiov, 32, true⟩ ∈
      (writevEv (oneByte true) 1 3 (List.replicate 33 ⟨0, 1⟩) default false ⟨0, .blocking⟩).1 ∧
    tiovCapacity (List.replicate 33 (⟨0, 1⟩ : Iovec)).length = 32 :=
  ⟨writevEv_copies (by decide) (by decide) (by decide) false (by decide), by decide⟩

end Pth.WriteM

namespace Pth

open Logged (Watched)
open FdM (InRange)

/-! ## The number of bytes that is reported -/

/-- The functions that write. -/
inductive WriteCall where
  | write (buf : Iovec)
  | writev (iov : List Iovec) (tiov : ℕ → Iovec)
  | sendto (buf : Iovec)

namespace WriteCall

variable {w : FdWorld} {n : ℕ} {fd : ℤ} {extra : Bool}

def exec (w : FdWorld) (n : ℕ) (fd : ℤ) (extra : Bool) : WriteCall → WriteM (Except Errno ℕ)
  | .write buf => WriteM.writeEv w n fd buf extra
  | .writev iov tiov => WriteM.writevEv w n fd iov tiov extra
  | .sendto buf => WriteM.sendtoEv w n fd buf extra

/-- How many bytes are to be written. -/
def nbytes : WriteCall → ℕ
  | .write buf => buf.iovLen
  | .writev iov _ => iovBytes iov
  | .sendto buf => buf.iovLen

/-- The number of chunks is admitted. -/
def Admitted : WriteCall → Prop
  | .writev iov _ => iov.length ≠ 0 ∧ iov.length ≤ uioMaxiov
  | _ => True

theorem accepted_cons (e : WriteEntry) (log : List WriteEntry) :
    accepted (e :: log) = e.accepted + accepted log := rfl

theorem accepted_append (log log' : List WriteEntry) :
    accepted (log ++ log') = accepted log + accepted log' := by
  rw [accepted, List.map_append, List.sum_append]
  rfl

theorem accepted_touched (ts : List Touch) : accepted (ts.map .touched) = 0 := by
  induction ts with
  | nil => rfl
  | cons t ts ih =>
    rw [List.map_cons, accepted_cons, ih]
    rfl

/-- If the run has returned, then with the number of bytes that have been accepted, and with an
    error only if there are none. -/
def Reported (run : List WriteEntry × Option (Except Errno ℕ × FdState)) : Prop :=
  ∀ r s, run.2 = some (r, s) →
    (0 < accepted run.1 → r = .ok (accepted run.1)) ∧ (∀ e, r = .error e → accepted run.1 = 0)

/-- The monitor counts what has been accepted. -/
def countMonitor (count : ℕ) (e : WriteEntry) : Option ℕ := some (count + e.accepted)

theorem foldlM_countMonitor (log : List WriteEntry) (count : ℕ) :
    log.foldlM countMonitor count = some (count + accepted log) := by
  induction log generalizing count with
  | nil => rfl
  | cons e log ih =>
    rw [List.foldlM_cons, countMonitor]
    refine (ih _).trans ?_
    rw [accepted_cons, Nat.add_assoc]

/-- What a call that writes `total` bytes returns after `count` bytes have been accepted. -/
def Told (extra : Bool) (total : ℕ) (r : Except Errno ℕ) (count : ℕ) : Prop :=
  r = .ok count ∨ (∃ e, r = .error e) ∧ (count = 0 ∨ extra = true ∧ 2 ≤ total)

/-- Between two rounds something has been written, and something is left. -/
theorem count_rule {δ : Type} {D : Source δ} (total : ℕ) : WriteM.LoopRule D extra countMonitor
    (fun nbytes rv _ q => q = rv ∧ rv + nbytes = total ∧ (rv = 0 ∨ 0 < nbytes))
    (fun r nbytes rv _ q => q = rv + took r ∧ rv + nbytes = total ∧ (rv = 0 ∨ 0 < nbytes))
    (Told extra total) where
  refused e h := .inr ⟨⟨e, rfl⟩, .inl h.1⟩
  empty h := .inl (by rw [h.1])
  slept h := ⟨_, rfl, h⟩
  interrupted := by
    rintro nbytes rv d q hextra ⟨rfl, htotal, hleft⟩
    refine ⟨_, rfl, .inr ⟨⟨_, rfl⟩, ?_⟩⟩
    by_cases hq : q = 0
    · exact .inl hq
    · exact .inr ⟨hextra, by omega⟩
  wrote r := by
    rintro ⟨rfl, h⟩
    exact ⟨_, rfl, rfl, h⟩
  again h := h
  failed := by
    rintro nbytes rv d q e ⟨rfl, -⟩
    split
    case isTrue hrv => exact .inr ⟨⟨e, rfl⟩, .inl hrv⟩
    case isFalse => exact .inl rfl
  ended h := .inl (by rw [h.1]; rfl)
  advanced := by
    rintro nbytes rv d q s hs hlt ⟨rfl, htotal, -⟩
    refine ⟨rv + s, ?_, rfl, by omega, .inr (by omega)⟩
    rw [foldlM_countMonitor, accepted_touched]
    rfl

theorem exec_told (call : WriteCall) : Watched countMonitor (fun q _ => q = 0)
    (call.exec w n fd extra) fun r q _ => Told extra call.nbytes r q := by
  have hstart : ∀ q, q = 0 → q = 0 ∧ 0 + call.nbytes = call.nbytes ∧ (0 = 0 ∨ 0 < call.nbytes) :=
    fun _ hq => ⟨hq, Nat.zero_add _, .inl rfl⟩
  cases call with
  | write buf =>
    exact (WriteM.writeEv_watched (count_rule _) buf).mono (fun q _ => hstart q) fun _ _ _ h => h
  | writev iov tiov =>
    exact (WriteM.writevEv_watched (count_rule _) tiov).mono (fun q _ => hstart q) fun _ _ _ h => h
  | sendto buf =>
    exact (WriteM.sendtoEv_watched (count_rule _) buf).mono (fun q _ => hstart q) fun _ _ _ h => h

/-- One byte is written, and then an extra event occurs. -/
theorem exec_cut {call : WriteCall} (hfd : InRange fd) (hcall : call.Admitted)
    (hbytes : 2 ≤ call.nbytes) : ∃ log s,
      call.exec (WriteM.oneByte false) 2 fd true ⟨0, .blocking⟩ = (log, some (.error .EINTR, s)) ∧
        accepted log = 1 := by
  have hcut : ∀ {δ : Type} {D : Source δ} {d : δ} {body : FdMode → WriteM Leave} {s : FdState},
      body .block ⟨0, .nonblocking⟩ =
        WriteM.writeLoop D (WriteM.oneByte false) 2 true .block 2 false call.nbytes 0 d s →
      ∃ log s', WriteM.inNonblock fd body ⟨0, .blocking⟩ = (log, some (.error .EINTR, s')) ∧
        accepted log = 1 := by
    intro δ D d body s hbody
    obtain ⟨s', hrun⟩ := WriteM.writeLoop_cut D 1 hbytes d s
    rw [WriteM.inNonblock_run hfd, hbody, hrun]
    refine ⟨_, s', rfl, ?_⟩
    rw [accepted_cons, accepted_append, accepted_touched]
    rfl
  cases call with
  | write buf =>
    have hpos : buf.iovLen ≠ 0 := Nat.ne_of_gt (Nat.lt_of_lt_of_le Nat.two_pos hbytes)
    rw [exec, WriteM.writeEv, if_neg hpos]
    exact hcut (WriteM.pollWrite_oneByte ..)
  | writev iov tiov =>
    have hadmitted : ¬ (iov.length = 0 ∨ iov.length > uioMaxiov) :=
      not_or.mpr ⟨hcall.1, Nat.not_lt.mpr hcall.2⟩
    rw [exec, WriteM.writevEv, if_neg hadmitted]
    obtain ⟨s, hs⟩ := WriteM.writevPolled_oneByte 1 true false iov tiov ⟨0, .nonblocking⟩
    exact hcut hs
  | sendto buf =>
    have hpos : buf.iovLen ≠ 0 := Nat.ne_of_gt (Nat.lt_of_lt_of_le Nat.two_pos hbytes)
    have hvalid : (FdM.valid fd).run ⟨0, .nonblocking⟩ = some (true, ⟨0, .nonblocking⟩) := by
      simp [FdM.valid, StateT.run, hfd]
    rw [exec, WriteM.sendtoEv, if_neg hpos]
    exact hcut ((Logged.lift_bind_run hvalid).trans (WriteM.pollWrite_oneByte ..))

theorem exec_not_reported {call : WriteCall} (hfd : InRange fd) (hcall : call.Admitted)
    (hbytes : 2 ≤ call.nbytes) :
    ¬ Reported (call.exec (WriteM.oneByte false) 2 fd true ⟨0, .blocking⟩) := by
  intro h
  obtain ⟨log, s, hrun, hlog⟩ := exec_cut hfd hcall hbytes
  have hnone := (h (.error .EINTR) s (by rw [hrun])).2 .EINTR rfl
  rw [hrun, hlog] at hnone
  cases hnone

/-- A call that is refused writes nothing. -/
theorem exec_refused {call : WriteCall} (h : ¬ InRange fd ∨ ¬ call.Admitted) (s : FdState) :
    (call.exec w n fd extra s).1 = [] := by
  cases call with
  | write buf =>
    have hfd : ¬ InRange fd := h.resolve_right (not_not.mpr trivial)
    rw [exec, WriteM.writeEv]
    split
    · rfl
    · rw [WriteM.inNonblock_of_not_inRange hfd]
  | writev iov tiov =>
    rw [exec, WriteM.writevEv]
    split
    case isTrue => rfl
    case isFalse hadmitted =>
      have hfd : ¬ InRange fd := h.resolve_right (not_not.mpr
        ⟨fun h0 => hadmitted (.inl h0), Nat.not_lt.mp fun hlt => hadmitted (.inr hlt)⟩)
      rw [WriteM.inNonblock_of_not_inRange hfd]
  | sendto buf =>
    have hfd : ¬ InRange fd := h.resolve_right (not_not.mpr trivial)
    rw [exec, WriteM.sendtoEv]
    split
    · rfl
    · rw [WriteM.inNonblock_of_not_inRange hfd]

/-- The functions that write report what has been written unless they can be interrupted by an extra
    event after a partial write. -/
theorem reported_iff (call : WriteCall) (fd : ℤ) (extra : Bool) :
    (∀ w n k, Reported (call.exec w n fd extra ⟨k, .blocking⟩)) ↔
      extra = false ∨ ¬ InRange fd ∨ ¬ call.Admitted ∨ call.nbytes < 2 := by
  constructor
  · intro h
    by_contra hcond
    simp only [not_or, not_not, Bool.not_eq_false, Nat.not_lt] at hcond
    obtain ⟨rfl, hfd, hcall, hbytes⟩ := hcond
    exact exec_not_reported hfd hcall hbytes (h _ _ _)
  · intro hcond w n k r s hrun
    obtain ⟨q, hlog, htold⟩ := exec_told call 0 ⟨k, .blocking⟩ rfl
    rw [foldlM_countMonitor, Nat.zero_add] at hlog
    obtain rfl := Option.some.inj hlog
    rcases htold r s hrun with rfl | ⟨⟨e, rfl⟩, hlost⟩
    · exact ⟨fun _ => rfl, fun e he => by cases he⟩
    · have hnone : accepted (call.exec w n fd extra ⟨k, .blocking⟩).1 = 0 := by
        rcases hlost with hzero | ⟨hextra, hbytes⟩
        · exact hzero
        · have hrefused : ¬ InRange fd ∨ ¬ call.Admitted := by
            rcases hcond with hfalse | hfd | hcall | hlt
            · rw [hfalse] at hextra
              cases hextra
            · exact .inl hfd
            · exact .inr hcall
            · omega
          rw [exec_refused hrefused]
          rfl
      exact ⟨fun hpos => by omega, fun _ _ => hnone⟩

/-- Two bytes, of which one is written before an extra event occurs. -/
theorem written_not_reported :
    ¬ Reported ((write ⟨0, 2⟩).exec (WriteM.oneByte false) 2 3 true ⟨0, .blocking⟩) :=
  exec_not_reported (by decide) trivial (by decide)

end WriteCall

end Pth
