-- SUMMARY: The writing functions of pth_high.c send the right data and return; a rule for monitors of their loop.
import Pth.High.WriteData

/-!
# Runs of the writing functions

The functions write in one loop, and `LoopRule` is the rule for a monitor that reads their log: what
it keeps up with in a round, it keeps up with in a whole call. The monitor of this module follows the
data that are still to be written. -/

namespace Pth

/-! ## Bytes -/

/-- The bytes of a chunk. -/
def Iovec.bytes (mem : ℕ → UInt8) (v : Iovec) : List UInt8 :=
  (List.range v.iovLen).map fun i => mem (v.iovBase + i)

/-- The bytes of all chunks. -/
def bytesOf (mem : ℕ → UInt8) (iov : List Iovec) : List UInt8 := iov.flatMap (Iovec.bytes mem)

variable {mem : ℕ → UInt8}

theorem Iovec.length_bytes (mem : ℕ → UInt8) (v : Iovec) : (v.bytes mem).length = v.iovLen := by
  simp [bytes]

/-- A chunk whose start is moved. -/
theorem Iovec.bytes_drop (v : Iovec) (s : ℕ) :
    Iovec.bytes mem ⟨v.iovBase + s, v.iovLen - s⟩ = (v.bytes mem).drop s := by
  refine List.ext_getElem (by simp [bytes]) fun i h₁ h₂ => ?_
  simp [bytes, Nat.add_assoc, Nat.add_comm s]

theorem length_bytesOf (mem : ℕ → UInt8) (iov : List Iovec) :
    (bytesOf mem iov).length = iovBytes iov := by
  rw [WriteM.iovBytes_eq, bytesOf, List.length_flatMap]
  simp only [Iovec.length_bytes]

theorem bytesOf_cons (v : Iovec) (iov : List Iovec) :
    bytesOf mem (v :: iov) = v.bytes mem ++ bytesOf mem iov := List.flatMap_cons ..

/-! ## Advancing the vector -/

namespace Iovs

variable {arr : IovArray → ℕ → Iovec} {riovcnt : ℕ} {x : Iovs}

theorem chunks_congr {arr' : IovArray → ℕ → Iovec} {a a' : IovArray} {i cnt : ℕ}
    (h : ∀ j, i ≤ j → j < i + cnt → arr a j = arr' a' j) :
    chunks arr a i cnt = chunks arr' a' i cnt := by
  induction cnt generalizing i with
  | zero => rfl
  | succ cnt ih =>
    rw [chunks, chunks, h i (by omega) (by omega), ih fun j hj hlt => h j (by omega) (by omega)]

/-- The virtual position: in the caller's vector as a whole, or in the copy. -/
inductive Stands (riovcnt : ℕ) (x : Iovs) : Prop
  | real (h : x.liov = some (.riov, 0)) (hcnt : x.liovcnt = riovcnt)
  | copy (i : ℕ) (h : x.liov = some (.tiov, i)) (hcnt : i + x.liovcnt = riovcnt)

/-- The bytes in front of the new position are gone. -/
theorem advanceLoop_bytes (mem : ℕ → UInt8) (a : IovArray) (i cnt advance : ℕ) :
    bytesOf mem (advanceLoop arr a i cnt advance).1.given =
      (bytesOf mem (chunks arr a i cnt)).drop advance := by
  induction cnt generalizing i advance with
  | zero => simp [advanceLoop, given, chunks, bytesOf]
  | succ cnt ih =>
    rw [advanceLoop]
    split_ifs with hzero hless
    · rw [hzero, List.drop_zero]
      rfl
    · have hrest : chunks (setIov arr a i ⟨(arr a i).iovBase + advance, (arr a i).iovLen - advance⟩)
          a (i + 1) cnt = chunks arr a (i + 1) cnt := chunks_congr fun j hj _ => by
        have hne : j ≠ i := by omega
        simp [setIov, hne]
      have hlen := Iovec.length_bytes mem (arr a i)
      simp only [given, chunks, hrest, bytesOf_cons]
      rw [List.drop_append_of_le_length (by omega), ← Iovec.bytes_drop]
      simp [setIov]
    · have hlen := Iovec.length_bytes mem (arr a i)
      have hnil : ((arr a i).bytes mem).drop advance = [] := List.drop_eq_nil_of_le (by omega)
      dsimp only
      rw [ih, chunks, bytesOf_cons, List.drop_append, hlen, hnil, List.nil_append]

theorem advanceLoop_stands (arr : IovArray → ℕ → Iovec) (a : IovArray) (i cnt advance : ℕ) :
    ∃ j, (advanceLoop arr a i cnt advance).1.liov = some (a, j) ∧
      j + (advanceLoop arr a i cnt advance).1.liovcnt = i + cnt := by
  induction cnt generalizing i advance with
  | zero => exact ⟨i, rfl, rfl⟩
  | succ cnt ih =>
    rw [advanceLoop]
    split_ifs
    · exact ⟨i, rfl, rfl⟩
    · exact ⟨i, rfl, rfl⟩
    · obtain ⟨j, hliov, hcnt⟩ := ih (i + 1) (advance - (arr a i).iovLen)
      exact ⟨j, hliov, by rw [hcnt]; omega⟩

/-- Only elements of the vector that the position is in are touched. -/
theorem advanceLoop_touches (a : IovArray) (i cnt advance : ℕ) :
    ∀ t ∈ (advanceLoop arr a i cnt advance).2, t.array = a ∧ t.index < i + cnt := by
  induction cnt generalizing i advance with
  | zero => simp [advanceLoop]
  | succ cnt ih =>
    rw [advanceLoop]
    split_ifs
    · simp
    · simp
    · intro t ht
      rcases List.mem_cons.mp ht with rfl | ht
      · exact ⟨rfl, by simp⟩
      · have := ih (i + 1) _ t ht
        exact ⟨this.1, by omega⟩

/-- The copy of the caller's vector. -/
theorem copyLoop_spec (arr : IovArray → ℕ → Iovec) (n : ℕ) :
    (copyLoop arr n).1 .riov = arr .riov ∧
      ∀ i < n, (copyLoop arr n).1 .tiov i = arr .riov i := by
  induction n with
  | zero => exact ⟨rfl, by simp⟩
  | succ n ih =>
    have hstep : (copyLoop arr (n + 1)).1 =
        setIov (copyLoop arr n).1 .tiov n ((copyLoop arr n).1 .riov n) := by
      simp only [copyLoop, List.range_succ, List.foldl_append, List.foldl_cons, List.foldl_nil]
    rw [hstep]
    refine ⟨by simp [setIov, ih.1], fun i hi => ?_⟩
    by_cases h : i = n
    · subst h
      simp [setIov, ih.1]
    · simp [setIov, h, ih.2 i (by omega)]

theorem copyLoop_touches (arr : IovArray → ℕ → Iovec) (n : ℕ) :
    ∀ t ∈ (copyLoop arr n).2, t.index < n ∧ (t.array = .riov → t.store = false) := by
  intro t ht
  obtain ⟨i, hi, ht⟩ := List.mem_flatMap.mp ht
  have hlt := List.mem_range.mp hi
  rcases List.mem_cons.mp ht with rfl | ht
  · exact ⟨hlt, fun _ => rfl⟩
  · obtain rfl := List.mem_singleton.mp ht
    exact ⟨hlt, fun h => by cases h⟩

/-- The position leaves the caller's vector for the copy. -/
theorem advance_real (hliov : x.liov = some (.riov, 0)) (hcnt : x.liovcnt = riovcnt) {s : ℕ}
    (hs : 0 < s) : x.advance riovcnt s =
      ((advanceLoop (copyLoop x.arr riovcnt).1 .tiov 0 riovcnt s).1, (copyLoop x.arr riovcnt).2 ++
        (advanceLoop (copyLoop x.arr riovcnt).1 .tiov 0 riovcnt s).2) := by
  simp [advance, hliov, hcnt, hs]

/-- `pth_writev_iov_advance` drops what has been written, and leaves the caller's vector alone. -/
theorem advance_spec (mem : ℕ → UInt8) (hx : x.Stands riovcnt) {s : ℕ} (hs : 0 < s) :
    (x.advance riovcnt s).1.Stands riovcnt ∧
      bytesOf mem (x.advance riovcnt s).1.given = (bytesOf mem x.given).drop s ∧
      ∀ t ∈ (x.advance riovcnt s).2, t.index < riovcnt ∧ (t.array = .riov → t.store = false) := by
  cases hx with
  | real hliov hcnt =>
    rw [advance_real hliov hcnt hs]
    obtain ⟨j, hj, hjcnt⟩ := advanceLoop_stands (copyLoop x.arr riovcnt).1 .tiov 0 riovcnt s
    refine ⟨.copy j hj (by rw [hjcnt, Nat.zero_add]), ?_, fun t ht => ?_⟩
    · have hcopied : chunks (copyLoop x.arr riovcnt).1 .tiov 0 riovcnt =
          chunks x.arr .riov 0 riovcnt :=
        chunks_congr fun i _ hi => (copyLoop_spec x.arr riovcnt).2 i (by omega)
      rw [advanceLoop_bytes, hcopied]
      simp [given, hliov, hcnt]
    · rcases List.mem_append.mp ht with ht | ht
      · exact copyLoop_touches x.arr riovcnt t ht
      · obtain ⟨harr, hidx⟩ := advanceLoop_touches .tiov 0 riovcnt s t ht
        exact ⟨by omega, fun h => by rw [harr] at h; cases h⟩
  | copy i hliov hcnt =>
    have hadvance : x.advance riovcnt s = advanceLoop x.arr .tiov i x.liovcnt s := by
      simp [advance, hliov, hs]
    rw [hadvance]
    obtain ⟨j, hj, hjcnt⟩ := advanceLoop_stands x.arr .tiov i x.liovcnt s
    refine ⟨.copy j hj (by rw [hjcnt, hcnt]), ?_, fun t ht => ?_⟩
    · rw [advanceLoop_bytes]
      simp [given, hliov]
    · obtain ⟨harr, hidx⟩ := advanceLoop_touches .tiov i x.liovcnt s t ht
      exact ⟨by omega, fun h => by rw [harr] at h; cases h⟩

theorem chunks_getD {iov : List Iovec} {a : IovArray} (harr : ∀ i, arr a i = iov.getD i default)
    {i cnt : ℕ} (h : i + cnt = iov.length) : chunks arr a i cnt = iov.drop i := by
  induction cnt generalizing i with
  | zero => rw [chunks, List.drop_of_length_le (by omega)]
  | succ cnt ih =>
    have hi : i < iov.length := by omega
    rw [chunks, ih (by omega), List.drop_eq_getElem_cons hi, harr, List.getD_eq_getElem?_getD,
      List.getElem?_eq_getElem hi, Option.getD_some]

/-- The first step: the virtual position is the caller's vector. -/
theorem advance_init (iov : List Iovec) (tiov : ℕ → Iovec) :
    ((init iov tiov).advance iov.length 0).1.Stands iov.length ∧
      ((init iov tiov).advance iov.length 0).1.given = iov :=
  ⟨.real rfl rfl, chunks_getD (fun _ => rfl) (Nat.zero_add _)⟩

end Iovs

/-! ## The data monitor -/

/-- How many bytes a system call has accepted. -/
def took : Except Errno ℕ → ℕ
  | .ok n => n
  | .error _ => 0

namespace WriteEntry

/-- How many bytes the system has accepted. -/
def accepted : WriteEntry → ℕ
  | .wrote _ r => took r
  | _ => 0

/-- The bytes that the system has accepted. -/
def sent (mem : ℕ → UInt8) : WriteEntry → List UInt8
  | .wrote given r => (bytesOf mem given).take (took r)
  | _ => []

/-- Some bytes have been accepted, but not all that were given. -/
def isPartial (mem : ℕ → UInt8) : WriteEntry → Bool
  | .wrote given r => decide (0 < took r ∧ took r < (bytesOf mem given).length)
  | _ => false

end WriteEntry

/-- How many bytes the system has accepted over a log. -/
def accepted (log : List WriteEntry) : ℕ := (log.map WriteEntry.accepted).sum

/-- A log of a function that writes `data`: every system call is given what the calls before it have
    left, so that what is accepted is a part of the data from their start on; the caller's vector is
    not stored to; and there are not more partial writes than bytes. -/
structure SendsRight (mem : ℕ → UInt8) (data : List UInt8) (log : List WriteEntry) : Prop where
  given : ∀ l₁ g r l₂, log = l₁ ++ .wrote g r :: l₂ → bytesOf mem g = data.drop (accepted l₁)
  sent : log.flatMap (WriteEntry.sent mem) <+: data
  kept : ∀ t, .touched t ∈ log → t.array = .riov → t.store = false
  finite : log.countP (WriteEntry.isPartial mem) ≤ data.length

/-- The monitor has the data that are still to be written. -/
def dataMonitor (mem : ℕ → UInt8) (rem : List UInt8) : WriteEntry → Option (List UInt8)
  | .touched t => if t.array = .riov ∧ t.store = true then none else some rem
  | .wrote given r => if bytesOf mem given = rem then some (rem.drop (took r)) else none
  | .slept _ => some rem

theorem SendsRight.nil {data : List UInt8} : SendsRight mem data [] where
  given l₁ g r l₂ h := by simp at h
  sent := List.nil_prefix
  kept := by simp
  finite := by simp

/-- What it means that the monitor accepts an entry. -/
structure Accepts (mem : ℕ → UInt8) (rem rem' : List UInt8) (e : WriteEntry) : Prop where
  left : rem' = rem.drop e.accepted
  sent : e.sent mem = rem.take e.accepted
  given : ∀ g r, e = .wrote g r → bytesOf mem g = rem
  kept : ∀ t, e = .touched t → t.array = .riov → t.store = false
  less : e.isPartial mem = true → rem'.length < rem.length

theorem dataMonitor_accepts {rem rem' : List UInt8} {e : WriteEntry}
    (h : dataMonitor mem rem e = some rem') : Accepts mem rem rem' e := by
  cases e with
  | touched t =>
    rw [dataMonitor] at h
    split at h
    case isTrue => cases h
    case isFalse hkept =>
      obtain rfl := Option.some.inj h
      refine ⟨rfl, rfl, by simp, ?_, by simp [WriteEntry.isPartial]⟩
      rintro t' ⟨⟩ harr
      simpa [harr] using hkept
  | slept b =>
    obtain rfl := Option.some.inj h
    exact ⟨rfl, rfl, by simp, by simp, by simp [WriteEntry.isPartial]⟩
  | wrote given r =>
    rw [dataMonitor] at h
    split at h
    case isFalse => cases h
    case isTrue hgiven =>
      obtain rfl := Option.some.inj h
      have hsent : WriteEntry.sent mem (.wrote given r) = rem.take (took r) := by
        rw [WriteEntry.sent, hgiven]
      refine ⟨rfl, hsent, ?_, by simp, fun hp => ?_⟩
      · rintro g r' ⟨⟩
        exact hgiven
      · have hless : 0 < took r ∧ took r < rem.length := by
          simpa [WriteEntry.isPartial, hgiven] using hp
        rw [List.length_drop]
        omega

/-- An entry that the monitor accepts, in front of a log of what it leaves. -/
theorem SendsRight.cons {rem rem' : List UInt8} {e : WriteEntry} {log : List WriteEntry}
    (he : Accepts mem rem rem' e) (h : SendsRight mem rem' log) :
    SendsRight mem rem (e :: log) where
  given l₁ g r l₂ heq := by
    cases l₁ with
    | nil =>
      obtain ⟨rfl, -⟩ := List.cons.inj heq
      exact he.given g r rfl
    | cons e' l₁ =>
      obtain ⟨rfl, hlog⟩ := List.cons.inj heq
      rw [h.given l₁ g r l₂ hlog, he.left, List.drop_drop]
      simp [accepted]
  sent := by
    have hsent := h.sent
    rw [he.left] at hsent
    rw [List.flatMap_cons, he.sent]
    calc rem.take e.accepted ++ log.flatMap (WriteEntry.sent mem)
        <+: rem.take e.accepted ++ rem.drop e.accepted :=
          (List.prefix_append_right_inj _).mpr hsent
      _ = rem := List.take_append_drop ..
  kept t ht harr := by
    rcases List.mem_cons.mp ht with heq | ht
    · exact he.kept t heq.symm harr
    · exact h.kept t ht harr
  finite := by
    have hle : rem'.length ≤ rem.length := by
      rw [he.left, List.length_drop]
      omega
    have hlog := h.finite
    rw [List.countP_cons]
    split
    case isTrue hp =>
      have := he.less hp
      omega
    case isFalse => omega

theorem sendsRight_of_monitor {rem rem' : List UInt8} {log : List WriteEntry}
    (h : log.foldlM (dataMonitor mem) rem = some rem') : SendsRight mem rem log := by
  induction log generalizing rem with
  | nil => exact .nil
  | cons e log ih =>
    rw [List.foldlM_cons] at h
    obtain ⟨rem₁, he, hlog⟩ := Option.bind_eq_some_iff.mp h
    exact .cons (dataMonitor_accepts he) (ih hlog)

/-! ## The calls under a monitor -/

/-- Only an extra event ends a sleep early. -/
theorem FdM.sleep_extra {w : FdWorld} {extra : Bool} :
    StateT.Triple (fun _ => True) (FdM.sleep w extra) fun b _ => b = true → extra = true := by
  refine (FdM.triple_any (FdM.event w)).bind fun e => ?_
  cases e with
  | error e => exact .pure fun _ _ h => h
  | ok u => exact (FdM.triple_any (FdM.wait w)).bind fun occurred => .pure fun _ _ h => by simp_all

/-- What a part of a function returns in the end. -/
def Leave.result : Leave → Except Errno ℕ
  | .returns r => r
  | .breaks r => r

namespace WriteM

open Logged (Watched)

variable {κ δ : Type} {D : Source δ} {w : FdWorld} {n : ℕ} {extra : Bool} {mode : FdMode}

/-- A monitor that keeps up with the loop. `I` holds when a round begins, with the bytes that are
    left, the bytes that have been written and the data; `J` holds when a system call has been made,
    and `Q` when the function returns. -/
structure LoopRule (D : Source δ) (extra : Bool) (μ : κ → WriteEntry → Option κ)
    (I : ℕ → ℕ → δ → κ → Prop) (J : Except Errno ℕ → ℕ → ℕ → δ → κ → Prop)
    (Q : Except Errno ℕ → κ → Prop) : Prop where
  refused : ∀ {nbytes d q} e, I nbytes 0 d q → Q (.error e) q
  empty : ∀ {nbytes d q}, I nbytes 0 d q → Q (.ok 0) q
  slept : ∀ {nbytes rv d q}, I nbytes rv d q →
    ∃ q', μ q (.slept false) = some q' ∧ I nbytes rv d q'
  interrupted : ∀ {nbytes rv d q}, extra = true → I nbytes rv d q →
    ∃ q', μ q (.slept true) = some q' ∧ Q (.error .EINTR) q'
  wrote : ∀ {nbytes rv d q} r, I nbytes rv d q →
    ∃ q', μ q (.wrote (D.given d) r) = some q' ∧ J r nbytes rv d q'
  again : ∀ {nbytes rv d q}, J (.error .EINTR) nbytes rv d q → I nbytes rv d q
  failed : ∀ {nbytes rv d q e}, J (.error e) nbytes rv d q →
    Q (if rv = 0 then .error e else .ok rv) q
  ended : ∀ {nbytes rv d q s}, J (.ok s) nbytes rv d q → Q (.ok (rv + s)) q
  advanced : ∀ {nbytes rv d q s}, 0 < s → s < nbytes → J (.ok s) nbytes rv d q →
    ∃ q', ((D.advance s d).2.map .touched).foldlM μ q = some q' ∧
      I (nbytes - s) (rv + s) (D.advance s d).1 q'

namespace LoopRule

variable {μ : κ → WriteEntry → Option κ} {I : ℕ → ℕ → δ → κ → Prop}
  {J : Except Errno ℕ → ℕ → ℕ → δ → κ → Prop} {Q : Except Errno ℕ → κ → Prop}

/-- After a sleep the round goes on, or the function returns. -/
theorem sleepIf (h : LoopRule D extra μ I J Q) (idle : Bool) (nbytes rv : ℕ) (d : δ) :
    Watched μ (fun q _ => I nbytes rv d q) (sleepIf w extra idle)
      fun b q _ => if b then Q (.error .EINTR) q else I nbytes rv d q := by
  cases idle with
  | false => exact .pure fun _ _ hI => hI
  | true =>
    refine .bind (R := fun b q _ => (b = true → extra = true) ∧ I nbytes rv d q)
      (.lift fun q s b s' hI hrun => ⟨FdM.sleep_extra s b s' trivial hrun, hI⟩) fun b => ?_
    refine .bind (R := fun _ q _ => if b then Q (.error .EINTR) q else I nbytes rv d q)
      (.tell fun q s hq => ?_) fun _ => .pure fun _ _ hq => hq
    have hentry : ∃ q', μ q (.slept b) = some q' ∧
        if b then Q (.error .EINTR) q' else I nbytes rv d q' := by
      cases b with
      | false => exact h.slept hq.2
      | true => exact h.interrupted (hq.1 rfl) hq.2
    obtain ⟨q', hq', hnext⟩ := hentry
    exact ⟨q', by rw [List.foldlM_cons, hq']; rfl, hnext⟩

theorem scRetry (h : LoopRule D extra μ I J Q) (nbytes rv : ℕ) (d : δ) (n : ℕ) :
    Watched μ (fun q _ => I nbytes rv d q) (scRetry w (D.given d) n)
      fun r q _ => J r nbytes rv d q := by
  induction n with
  | zero => exact .failure
  | succ n ih =>
    refine .bind .lift_keep fun r => ?_
    refine .bind (R := fun _ q _ => J r nbytes rv d q) (.tell fun q s hI => ?_) fun _ => ?_
    · obtain ⟨q', hq', hJ⟩ := h.wrote r hI
      exact ⟨q', by rw [List.foldlM_cons, hq']; rfl, hJ⟩
    · split
      case isTrue hintr =>
        rw [hintr]
        exact ih.mono (fun _ _ hJ => h.again hJ) fun _ _ _ hJ => hJ
      case isFalse => exact .pure fun _ _ hJ => hJ

theorem writeLoop (h : LoopRule D extra μ I J Q) (k : ℕ) (idle : Bool) (nbytes rv : ℕ) (d : δ) :
    Watched μ (fun q _ => I nbytes rv d q) (writeLoop D w n extra mode k idle nbytes rv d)
      fun l q _ => Q l.result q := by
  induction k generalizing idle nbytes rv d with
  | zero => exact .failure
  | succ k ih =>
    refine .bind (h.sleepIf idle nbytes rv d) fun interrupted => ?_
    cases interrupted with
    | true => exact .bind .lift_keep fun _ => .pure fun _ _ hQ => hQ
    | false =>
      refine .bind (h.scRetry nbytes rv d n) fun r => ?_
      cases r with
      | error e => exact .pure fun _ _ hJ => h.failed hJ
      | ok s =>
        dsimp only
        split
        case isFalse => exact .pure fun _ _ hJ => h.ended hJ
        case isTrue hs =>
          exact .bind (.tell fun _ _ hJ => h.advanced hs.1 hs.2 hJ) fun _ => ih true _ _ _

theorem pollWrite (h : LoopRule D extra μ I J Q) (sleeps : Bool) (nbytes : ℕ) (d : δ) :
    Watched μ (fun q _ => I nbytes 0 d q) (pollWrite D w n extra mode sleeps nbytes d)
      fun l q _ => Q l.result q := by
  refine .bind .lift_keep fun r => ?_
  cases r with
  | error e =>
    dsimp only
    split
    · exact .pure fun _ _ hI => h.refused e hI
    · exact h.writeLoop n sleeps nbytes 0 d
  | ok r => exact h.writeLoop n _ nbytes 0 d

theorem plain (h : LoopRule D extra μ I J Q) (nbytes : ℕ) (d : δ) :
    Watched μ (fun q _ => I nbytes 0 d q) (plain w n (D.given d)) fun l q _ => Q l.result q := by
  refine .bind (h.scRetry nbytes 0 d n) fun r => .pure fun q _ hJ => ?_
  cases r with
  | error e => exact h.failed hJ
  | ok s =>
    rw [Leave.result, ← Nat.zero_add s]
    exact h.ended hJ

theorem finish {l : Leave} :
    Watched μ (fun q _ => Q l.result q) (.lift (FdM.finish mode l)) fun r q _ => Q r q := by
  refine .lift fun q s r s' hq hrun => ?_
  cases l with
  | returns r' =>
    obtain ⟨rfl, -⟩ := Prod.mk.inj (Option.some.inj hrun)
    exact hq
  | breaks r' =>
    obtain ⟨rfl, -⟩ := Prod.mk.inj (Option.some.inj hrun)
    exact hq

theorem inNonblock (h : LoopRule D extra μ I J Q) {nbytes : ℕ} {d : δ} {fd : ℤ}
    {body : FdMode → WriteM Leave}
    (hbody : ∀ mode, Watched μ (fun q _ => I nbytes 0 d q) (body mode)
      fun l q _ => Q l.result q) :
    Watched μ (fun q _ => I nbytes 0 d q) (inNonblock fd body) fun r q _ => Q r q := by
  refine .bind .lift_keep fun mode => ?_
  cases mode with
  | none => exact .pure fun _ _ hI => h.refused _ hI
  | some mode => exact .bind (hbody mode) fun _ => finish

end LoopRule

variable {μ : κ → WriteEntry → Option κ} {Q : Except Errno ℕ → κ → Prop} {fd : ℤ}

section

variable {I : ℕ → ℕ → Iovec → κ → Prop} {J : Except Errno ℕ → ℕ → ℕ → Iovec → κ → Prop}

theorem writeEv_watched (h : LoopRule .buffer extra μ I J Q) (buf : Iovec) :
    Watched μ (fun q _ => I buf.iovLen 0 buf q) (writeEv w n fd buf extra)
      fun r q _ => Q r q := by
  unfold writeEv
  split
  · exact .pure fun _ _ hI => h.empty hI
  · refine h.inNonblock fun mode => ?_
    split
    · exact h.pollWrite true _ buf
    · exact h.plain _ buf

theorem sendtoEv_watched (h : LoopRule .buffer extra μ I J Q) (buf : Iovec) :
    Watched μ (fun q _ => I buf.iovLen 0 buf q) (sendtoEv w n fd buf extra)
      fun r q _ => Q r q := by
  unfold sendtoEv
  split
  · exact .pure fun _ _ hI => h.empty hI
  · refine h.inNonblock fun mode => ?_
    split
    · refine .bind .lift_keep fun valid => ?_
      split
      · exact .bind .lift_keep fun _ => .pure fun _ _ hI => h.refused _ hI
      · exact h.pollWrite false _ buf
    · exact h.plain _ buf

end

/-- The vector when the loop begins. -/
theorem writevEv_watched {iov : List Iovec} {I : ℕ → ℕ → Iovs → κ → Prop}
    {J : Except Errno ℕ → ℕ → ℕ → Iovs → κ → Prop}
    (h : LoopRule (.vector iov.length) extra μ I J Q) (tiov : ℕ → Iovec) :
    Watched μ (fun q _ => I (iovBytes iov) 0 ((Iovs.init iov tiov).advance iov.length 0).1 q)
      (writevEv w n fd iov tiov extra) fun r q _ => Q r q := by
  unfold writevEv
  split
  · exact .pure fun _ _ hI => h.refused _ hI
  · refine h.inNonblock fun mode => ?_
    split
    · refine .bind .lift_keep fun malloc => ?_
      split
      · exact .pure fun _ _ hI => h.refused _ hI
      · refine .bind (R := fun _ q _ => I _ 0 ((Iovs.init iov tiov).advance iov.length 0).1 q)
          (.tell fun q _ hI => ⟨q, rfl, hI⟩) fun _ => ?_
        refine .bind .lift_keep fun r => ?_
        cases r with
        | error e => exact h.writeLoop n true _ 0 _
        | ok r => exact h.writeLoop n _ _ 0 _
    · have hgiven := (Iovs.advance_init iov tiov).2
      conv in plain w n iov => rw [← hgiven]
      exact h.plain _ _

/-! ## Sending the right data -/

/-- The chunks that a source gives have the bytes that are left of its data. -/
structure Sends (D : Source δ) (mem : ℕ → UInt8) (K : δ → List UInt8 → Prop) : Prop where
  given : ∀ d rem, K d rem → bytesOf mem (D.given d) = rem
  advance : ∀ d rem s, K d rem → 0 < s → K (D.advance s d).1 (rem.drop s) ∧
    ∀ t ∈ (D.advance s d).2, t.array = .riov → t.store = false

theorem foldlM_touched {ts : List Touch} (h : ∀ t ∈ ts, t.array = .riov → t.store = false)
    (rem : List UInt8) : (ts.map WriteEntry.touched).foldlM (dataMonitor mem) rem = some rem := by
  induction ts with
  | nil => rfl
  | cons t ts ih =>
    have ht : ¬ (t.array = .riov ∧ t.store = true) := fun hbad => by
      simp [h t (by simp) hbad.1] at hbad
    rw [List.map_cons, List.foldlM_cons, dataMonitor, if_neg ht]
    exact ih fun t' ht' => h t' (.tail _ ht')

/-- The monitor's data are those of the source, up to the system call that has just been made. -/
theorem Sends.rule {K : δ → List UInt8 → Prop} (hD : Sends D mem K) :
    LoopRule D extra (dataMonitor mem) (fun nbytes _ d q => nbytes = q.length ∧ K d q)
      (fun r nbytes _ d q => ∃ rem, nbytes = rem.length ∧ K d rem ∧ q = rem.drop (took r))
      fun _ _ => True where
  refused _ _ := trivial
  empty _ := trivial
  slept h := ⟨_, rfl, h⟩
  interrupted _ _ := ⟨_, rfl, trivial⟩
  wrote r h := ⟨_, by rw [dataMonitor, if_pos (hD.given _ _ h.2)], _, h.1, h.2, rfl⟩
  again := by
    rintro nbytes rv d q ⟨rem, hlen, hK, rfl⟩
    exact ⟨hlen, hK⟩
  failed _ := trivial
  ended _ := trivial
  advanced := by
    rintro nbytes rv d q s hs - ⟨rem, rfl, hK, rfl⟩
    obtain ⟨hK', htouch⟩ := hD.advance d rem s hK hs
    exact ⟨_, foldlM_touched htouch _, (List.length_drop ..).symm, hK'⟩

theorem buffer_sends (mem : ℕ → UInt8) :
    Sends .buffer mem fun v rem => v.bytes mem = rem where
  given v rem h := (List.append_nil _).trans h
  advance v rem s := by
    rintro rfl -
    exact ⟨Iovec.bytes_drop v s, by simp [Source.buffer]⟩

theorem vector_sends (mem : ℕ → UInt8) (riovcnt : ℕ) : Sends (.vector riovcnt) mem
    fun x rem => x.Stands riovcnt ∧ bytesOf mem x.given = rem where
  given _ _ h := h.2
  advance x rem s := by
    rintro ⟨hx, rfl⟩ hs
    obtain ⟨hstands, hbytes, htouches⟩ := x.advance_spec mem hx hs
    exact ⟨⟨hstands, hbytes⟩, fun t ht => (htouches t ht).2⟩

end WriteM

/-! ## Returning -/

namespace FdM

open StateT (Total)

variable {w : FdWorld} {n : ℕ} {extra : Bool}

/-- No system call is interrupted `n` times in a row. -/
def Uninterrupted (w : FdWorld) (n : ℕ) : Prop := ∀ k, ∃ i < n, w.sc (k + i) ≠ .error .EINTR

theorem scRetry_returns {s : FdState} (h : ∃ i < n, w.sc (s.asked + i) ≠ .error .EINTR) :
    ((scRetry w n).run s).isSome := by
  induction n generalizing s with
  | zero =>
    obtain ⟨i, hi, -⟩ := h
    cases hi
  | succ n ih =>
    rw [scRetry_run]
    split
    case isFalse => rfl
    case isTrue hintr =>
      obtain ⟨i, hi, hne⟩ := h
      cases i with
      | zero => exact absurd hintr hne
      | succ i => exact ih ⟨i, by omega, by rwa [Nat.succ_add_eq_add_succ]⟩

theorem scRetry_total (h : Uninterrupted w n) : Total (scRetry w n) :=
  fun _ => scRetry_returns (h _)

theorem sleep_total : Total (sleep w extra) := by
  refine .bind (fun _ => rfl) fun e => ?_
  cases e with
  | error e => exact .pure _
  | ok u => exact .bind (fun _ => rfl) fun _ => .pure _

/-- Every round but the last writes something. -/
theorem writeLoop_total (h : Uninterrupted w n) {mode : FdMode} {k : ℕ} (idle : Bool)
    {nbytes : ℕ} (rv : ℕ) (hk : nbytes < k) :
    Total (writeLoop w n extra mode k idle nbytes rv) := by
  induction k generalizing idle nbytes rv with
  | zero => cases hk
  | succ k ih =>
    unfold writeLoop
    have hsleep : Total (if idle then sleep w extra else pure false) := by
      split
      · exact sleep_total
      · exact .pure _
    refine hsleep.bind fun interrupted => ?_
    split
    · exact .bind (fun _ => rfl) fun _ => .pure _
    · refine (scRetry_total h).bind fun r => ?_
      cases r with
      | error e => exact .pure _
      | ok s =>
        dsimp only
        split
        · exact ih true (rv + s) (by omega)
        · exact .pure _

theorem inNonblock_total {fd : ℤ} {body : FdMode → FdM Leave} (h : ∀ mode, Total (body mode)) :
    Total (inNonblock fd body) := by
  have henter : Total (enter fd) := by
    refine .bind (fun _ => rfl) fun valid => ?_
    split
    · exact .pure _
    · refine .bind (fun _ => rfl) fun mode => ?_
      split <;> exact .pure _
  refine henter.bind fun mode => ?_
  cases mode with
  | none => exact .pure _
  | some mode =>
    refine (h mode).bind fun l => ?_
    cases l with
    | returns r => exact .pure r
    | breaks r => exact .bind (fun _ => rfl) fun _ => .pure r

theorem writevPolled_total (h : Uninterrupted w n) {mode : FdMode} {iov : List ℕ}
    (hn : iov.sum < n) : Total (writevPolled w n extra mode iov) := by
  have hpoll : Total (pollWritev w n extra mode iov) := by
    refine (scRetry_total h).bind fun r => ?_
    cases r with
    | error e => exact writeLoop_total h true 0 hn
    | ok r => exact writeLoop_total h _ 0 hn
  have hrest : ∀ malloc : Bool, Total
      (if !malloc then pure (.returns (.error .ENOMEM)) else pollWritev w n extra mode iov) := by
    intro malloc
    split
    · exact .pure _
    · exact hpoll
  unfold writevPolled
  split
  · exact .bind (.map fun _ => rfl) hrest
  · exact .bind (.pure true) hrest

theorem writevEv_total (h : Uninterrupted w n) {fd : ℤ} {iov : List ℕ} (hn : iov.sum < n) :
    Total (writevEv w n fd iov extra) := by
  unfold writevEv
  split
  · exact .pure _
  · refine inNonblock_total fun mode => ?_
    split
    · exact writevPolled_total h hn
    · exact (scRetry_total h).map

end FdM

namespace WriteM

/-- `pth_writev_ev` gives every system call what the calls before it have left of the data, whatever
    they have answered. It returns if no call is interrupted for ever, after one round for each byte
    at the most. -/
theorem writevEv_sends_right (mem : ℕ → UInt8) (w : FdWorld) (n : ℕ) (fd : ℤ) (iov : List Iovec)
    (tiov : ℕ → Iovec) (extra : Bool) (k : ℕ) :
    SendsRight mem (bytesOf mem iov) (writevEv w n fd iov tiov extra ⟨k, .blocking⟩).1 ∧
      (FdM.Uninterrupted w n → iovBytes iov < n →
        (writevEv w n fd iov tiov extra ⟨k, .blocking⟩).2.isSome) := by
  constructor
  · obtain ⟨hstands, hgiven⟩ := Iovs.advance_init iov tiov
    obtain ⟨q, hlog, -⟩ := writevEv_watched (vector_sends mem iov.length).rule tiov
      (bytesOf mem iov) ⟨k, .blocking⟩ ⟨(length_bytesOf mem iov).symm, hstands, by rw [hgiven]⟩
    exact sendsRight_of_monitor hlog
  · intro hw hn
    have hrun : (writevEv w n fd iov tiov extra ⟨k, .blocking⟩).2 =
        (FdM.writevEv w n fd (iov.map Iovec.iovLen) extra).run ⟨k, .blocking⟩ := by
      rw [← erase_writevEv w n fd iov tiov extra]
      rfl
    rw [hrun]
    exact FdM.writevEv_total hw (by rwa [← iovBytes_eq]) _

/-- `pth_write_ev` and `pth_sendto_ev` send the data of their buffer in order. -/
theorem buffer_sends_right (mem : ℕ → UInt8) (w : FdWorld) (n : ℕ) (fd : ℤ) (buf : Iovec)
    (extra : Bool) (s : FdState) :
    SendsRight mem (buf.bytes mem) (writeEv w n fd buf extra s).1 ∧
      SendsRight mem (buf.bytes mem) (sendtoEv w n fd buf extra s).1 := by
  have hstart : buf.iovLen = (buf.bytes mem).length ∧ buf.bytes mem = buf.bytes mem :=
    ⟨(Iovec.length_bytes mem buf).symm, rfl⟩
  obtain ⟨q, hwrite, -⟩ := writeEv_watched (buffer_sends mem).rule buf _ s hstart
  obtain ⟨q', hsendto, -⟩ := sendtoEv_watched (buffer_sends mem).rule buf _ s hstart
  exact ⟨sendsRight_of_monitor hwrite, sendsRight_of_monitor hsendto⟩

/-- Every system call writes one byte, and every sleep ends as `occurred` says. -/
def oneByte (occurred : Bool) : FdWorld where
  sc _ := .ok 1
  malloc _ := true
  event _ := .ok ()
  closes _ := false
  occurred _ := occurred

/-- Three chunks, of which one is empty, are written byte by byte. -/
theorem writevEv_sends_right_three :
    SendsRight (fun i => .ofNat i) [7, 8, 9]
      (writevEv (oneByte true) 4 3 [⟨7, 2⟩, ⟨1, 0⟩, ⟨9, 1⟩] default true ⟨0, .blocking⟩).1 ∧
    (writevEv (oneByte true) 4 3 [⟨7, 2⟩, ⟨1, 0⟩, ⟨9, 1⟩] default true ⟨0, .blocking⟩).2.isSome := by
  obtain ⟨hsends, hreturns⟩ := writevEv_sends_right (fun i => .ofNat i) (oneByte true) 4 3
    [⟨7, 2⟩, ⟨1, 0⟩, ⟨9, 1⟩] default true 0
  exact ⟨hsends, hreturns (fun _ => ⟨0, by decide, by simp [oneByte]⟩) (by decide)⟩

end WriteM

end Pth
