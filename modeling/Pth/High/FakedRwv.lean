-- SUMMARY: The emulated vectored calls of pth_high.c against the ones of the system.
import Mathlib.Algebra.Group.Nat.Defs
import Mathlib.Data.Int.Notation
import Mathlib.Data.List.Basic
import Mathlib.Tactic.Common
import Pth.Types

/-!
# Emulated vectored calls

`pth_writev_faked` and `pth_readv_faked` stand for `writev(2)` and `readv(2)`. They go through one
temporary buffer, which has unknown contents `junk` when it is allocated. A chunk of a vector is
the list of its bytes. -/

namespace Pth.FakedRwv

/-- `memcpy` of `src` into `dst` from the position `off` on. -/
def memcpy (dst : List UInt8) (off : ℕ) (src : List UInt8) : List UInt8 :=
  dst.take off ++ src ++ dst.drop (off + src.length)

/-- The sum of the lengths; an empty chunk is refused, and an empty vector. -/
def vectorBytes (iov : List (List UInt8)) : Option ℕ :=
  if iov.any (·.isEmpty) ∨ iov.flatten.length = 0 then none else some iov.flatten.length

/-- A new buffer of some length. -/
def malloc (junk : ℕ → UInt8) (bytes : ℕ) : List UInt8 := (List.range bytes).map junk

/-! ## The functions -/

/-- The loop of `pth_writev_faked`. The place that is copied to stays at the start of the
    buffer. -/
def gatherLoop (buffer : List UInt8) (toCopy : ℕ) : List (List UInt8) → List UInt8
  | [] => buffer
  | v :: iov =>
    let copy := min v.length toCopy
    let buffer := memcpy buffer 0 (v.take copy)
    if toCopy - copy = 0 then buffer else gatherLoop buffer (toCopy - copy) iov

/-- `pth_writev_faked`: the buffer that is given to `write(2)`, if any, and what is returned. -/
def writevFaked (alloc : Bool) (junk : ℕ → UInt8) (write : List UInt8 → Except Errno ℕ)
    (iov : List (List UInt8)) : Option (List UInt8) × Except Errno ℕ :=
  match vectorBytes iov with
  | none => (none, .error .EINVAL)
  | some bytes =>
    if !alloc then (none, .error .ENOMEM)
    else
      let buffer := gatherLoop (malloc junk bytes) bytes iov
      (some buffer, write buffer)

/-- The loop of `pth_readv_faked`: the chunks, and how far the pointer to the buffer has been
    advanced. -/
def scatterLoop (buffer : List UInt8) (pos bytes : ℕ) :
    List (List UInt8) → List (List UInt8) × ℕ
  | [] => ([], pos)
  | v :: iov =>
    let copy := min v.length bytes
    let v' := memcpy v 0 ((buffer.drop pos).take copy)
    if bytes - copy = 0 then (v' :: iov, pos + copy)
    else
      let r := scatterLoop buffer (pos + copy) (bytes - copy) iov
      (v' :: r.1, r.2)

/-- The result of `read(2)` in a `size_t`. -/
def readBytes : Except Errno (List UInt8) → ℕ
  | .ok data => data.length
  | .error _ => 2 ^ 64 - 1

/-- The same in the `ssize_t` that is returned. -/
def readRet : Except Errno (List UInt8) → ℤ
  | .ok data => data.length
  | .error _ => -1

/-- The buffer after `read(2)`. -/
def readBuffer (junk : ℕ → UInt8) (bytes : ℕ) : Except Errno (List UInt8) → List UInt8
  | .ok data => memcpy (malloc junk bytes) 0 data
  | .error _ => malloc junk bytes

/-- What `pth_readv_faked` has made of the chunks before it frees its buffer, and by how much the
    pointer that it frees has been advanced. -/
def readvStored (junk : ℕ → UInt8) (read : Except Errno (List UInt8)) (iov : List (List UInt8))
    (bytes : ℕ) : List (List UInt8) × ℕ :=
  if 0 < readBytes read then scatterLoop (readBuffer junk bytes read) 0 (readBytes read) iov
  else (iov, 0)

/-- `pth_readv_faked`: what is returned, and the chunks. To free a pointer that has been advanced
    is a fault. -/
def readvFaked (alloc : Bool) (junk : ℕ → UInt8) (read : Except Errno (List UInt8))
    (iov : List (List UInt8)) : Option (ℤ × List (List UInt8)) :=
  match vectorBytes iov with
  | none => some (-1, iov)
  | some bytes =>
    if !alloc then some (-1, iov)
    else
      let r := readvStored junk read iov bytes
      if r.2 = 0 then some (readRet read, r.1) else none

/-! ## What they stand for -/

/-- Bytes stored into the chunks in order. -/
def filled (data : List UInt8) : List (List UInt8) → List (List UInt8)
  | [] => []
  | v :: iov => (data.take v.length ++ v.drop data.length) :: filled (data.drop v.length) iov

/-- `write(2)` gets one buffer with all chunks, and its result is returned. -/
def WritevAgrees (iov : List (List UInt8)) : Prop :=
  ∀ junk write, writevFaked true junk write iov = (some iov.flatten, write iov.flatten)

/-- What has been read is stored into the chunks and its length is returned. After an error the
    chunks are as they were. -/
def ReadvAgrees (read : Except Errno (List UInt8)) (iov : List (List UInt8)) : Prop :=
  ∀ junk, readvFaked true junk read iov =
    some (readRet read, match read with
      | .ok data => filled data iov
      | .error _ => iov)

/-! ## Gathering -/

variable {iov : List (List UInt8)}

theorem vectorBytes_eq (hne : ∀ v ∈ iov, v ≠ []) (hiov : iov ≠ []) :
    vectorBytes iov = some iov.flatten.length ∧ 0 < iov.flatten.length := by
  have hpos : 0 < iov.flatten.length := by
    obtain ⟨v, iov, rfl⟩ := List.exists_cons_of_ne_nil hiov
    have hv := List.length_pos_iff.mpr (hne v (by simp))
    rw [List.flatten_cons, List.length_append]
    omega
  refine ⟨if_neg ?_, hpos⟩
  rintro (hempty | hzero)
  · obtain ⟨v, hv, hnil⟩ := List.any_eq_true.mp hempty
    exact hne v hv (List.isEmpty_iff.mp hnil)
  · omega

/-- Copying to the start leaves what is behind. -/
theorem gatherLoop_getElem? {buffer : List UInt8} {toCopy j : ℕ} (h : ∀ v ∈ iov, v.length ≤ j) :
    (gatherLoop buffer toCopy iov)[j]? = buffer[j]? := by
  induction iov generalizing buffer toCopy with
  | nil => rfl
  | cons v iov ih =>
    have hcopied : ∀ k, (memcpy buffer 0 (v.take k))[j]? = buffer[j]? := by
      intro k
      have hlen : (v.take k).length ≤ j := by
        have := h v (by simp)
        rw [List.length_take]
        omega
      rw [memcpy, List.take_zero, List.nil_append, List.getElem?_append_right hlen,
        List.getElem?_drop]
      congr 1
      omega
    rw [gatherLoop]
    split
    · exact hcopied _
    · rw [ih fun u hu => h u (.tail _ hu), hcopied]

/-- A vector with one chunk. -/
theorem gatherLoop_single {v buffer : List UInt8} (h : buffer.length = v.length) :
    gatherLoop buffer v.length [v] = v := by
  simp [gatherLoop, memcpy, h]

/-- With several chunks the last byte of the buffer has not been written. -/
theorem writev_agrees_iff (hne : ∀ v ∈ iov, v ≠ []) : WritevAgrees iov ↔ iov.length = 1 := by
  constructor
  · intro h
    by_contra hlen
    have hiov : iov ≠ [] := by
      rintro rfl
      have hcall := congrArg Prod.fst (h (fun _ => 0) fun _ => .ok 0)
      simp [writevFaked, vectorBytes] at hcall
    obtain ⟨hbytes, hpos⟩ := vectorBytes_eq hne hiov
    -- the last byte of all, which is in no chunk's reach
    have hreach : ∀ v ∈ iov, v.length ≤ iov.flatten.length - 1 := by
      intro v hv
      obtain ⟨A, B, rfl⟩ := List.append_of_mem hv
      have hother : A ++ B ≠ [] := by
        intro hnil
        obtain ⟨rfl, rfl⟩ := List.append_eq_nil_iff.mp hnil
        simp at hlen
      obtain ⟨u, hu⟩ := List.exists_mem_of_ne_nil _ hother
      have hflat : (A ++ B).flatten ≠ [] :=
        List.flatten_ne_nil_iff.mpr ⟨u, hu, hne u (by simp at hu ⊢; tauto)⟩
      have hpos := List.length_pos_iff.mpr hflat
      simp only [List.flatten_append, List.flatten_cons, List.length_append] at hpos ⊢
      omega
    obtain ⟨b, hb⟩ : ∃ b, iov.flatten[iov.flatten.length - 1]? = some b :=
      ⟨_, List.getElem?_eq_getElem (by omega)⟩
    have hcall := congrArg Prod.fst (h (fun _ => b + 1) fun _ => .ok 0)
    simp only [writevFaked, hbytes, Bool.not_true, Bool.false_eq_true, if_false,
      Option.some.injEq] at hcall
    have hlast := congrArg (·[iov.flatten.length - 1]?) hcall
    simp only [gatherLoop_getElem? hreach, hb] at hlast
    rw [malloc, List.getElem?_map, List.getElem?_range (by omega)] at hlast
    simp at hlast
  · intro hlen junk write
    obtain ⟨v, rfl⟩ := List.length_eq_one_iff.mp hlen
    obtain ⟨hbytes, -⟩ := vectorBytes_eq hne (by simp)
    have hgather : gatherLoop (malloc junk v.length) v.length [v] = v :=
      gatherLoop_single (by simp [malloc])
    simp only [List.flatten_cons, List.flatten_nil, List.append_nil] at hbytes
    simp [writevFaked, hbytes, hgather]

/-! ## Scattering -/

theorem filled_nil : ∀ iov, filled [] iov = iov
  | [] => rfl
  | v :: iov => by
    rw [filled, List.take_nil, List.drop_nil, filled_nil iov]
    rfl

/-- The pointer is never moved back. -/
theorem scatterLoop_advances (buffer : List UInt8) (pos bytes : ℕ) (iov : List (List UInt8)) :
    pos ≤ (scatterLoop buffer pos bytes iov).2 := by
  induction iov generalizing pos bytes with
  | nil => exact Nat.le_refl _
  | cons v iov ih =>
    rw [scatterLoop]
    split
    · exact Nat.le_add_right ..
    · exact Nat.le_trans (Nat.le_add_right ..) (ih ..)

/-- The loop fills each chunk before the next one. -/
theorem scatterLoop_filled {buffer : List UInt8} {pos bytes : ℕ}
    (hbytes : bytes ≤ iov.flatten.length) (hpos : pos + bytes ≤ buffer.length) :
    (scatterLoop buffer pos bytes iov).1 = filled ((buffer.drop pos).take bytes) iov := by
  induction iov generalizing pos bytes with
  | nil => rfl
  | cons v iov ih =>
    have hdata : ((buffer.drop pos).take bytes).length = bytes := by
      rw [List.length_take, List.length_drop]
      omega
    have hchunk : memcpy v 0 ((buffer.drop pos).take (min v.length bytes)) =
        ((buffer.drop pos).take bytes).take v.length ++
          v.drop ((buffer.drop pos).take bytes).length := by
      rw [memcpy, List.take_zero, List.nil_append, hdata, List.take_take, List.length_take,
        List.length_drop]
      congr 1
      rcases Nat.le_total v.length bytes with hle | hle
      · rw [List.drop_eq_nil_of_le hle, List.drop_eq_nil_of_le (by omega)]
      · congr 1
        omega
    rw [List.flatten_cons, List.length_append] at hbytes
    rw [scatterLoop, filled, ← hchunk]
    split
    case isTrue hlast =>
      -- nothing is left for the chunks behind
      have hnil : ((buffer.drop pos).take bytes).drop v.length = [] :=
        List.drop_eq_nil_of_le (by omega)
      rw [hnil, filled_nil]
    case isFalse hmore =>
      have hmin : min v.length bytes = v.length := by omega
      rw [hmin]
      dsimp only
      rw [ih (by omega) (by omega), List.drop_take, List.drop_drop]

/-- A read that has given bytes has them stored in the chunks. -/
theorem readvStored_filled (data : List UInt8) (junk : ℕ → UInt8)
    (hlen : data.length ≤ iov.flatten.length) :
    (readvStored junk (.ok data) iov iov.flatten.length).1 = filled data iov := by
  rw [readvStored]
  split
  case isTrue hpos =>
    have hbuffer : (memcpy (malloc junk iov.flatten.length) 0 data).take data.length = data := by
      rw [memcpy, List.take_zero, List.nil_append, List.take_left]
    rw [readBytes, readBuffer, scatterLoop_filled hlen (by simp [memcpy]), List.drop_zero, hbuffer]
  case isFalse hzero =>
    have hnil : data = [] := List.length_eq_zero_iff.mp (Nat.eq_zero_of_not_pos hzero)
    rw [hnil, filled_nil]

/-- The buffer is freed by its own address only if there was nothing to copy. -/
theorem readvStored_freed (hne : ∀ v ∈ iov, v ≠ []) (hiov : iov ≠ []) (junk : ℕ → UInt8)
    (read : Except Errno (List UInt8)) (bytes : ℕ) :
    (readvStored junk read iov bytes).2 = 0 ↔ readBytes read = 0 := by
  rw [readvStored]
  split
  case isTrue hpos =>
    obtain ⟨v, iov, rfl⟩ := List.exists_cons_of_ne_nil hiov
    have hv := List.length_pos_iff.mpr (hne v (by simp))
    refine iff_of_false ?_ (Nat.ne_of_gt hpos)
    rw [scatterLoop]
    split
    · dsimp only
      omega
    · have hle := scatterLoop_advances (readBuffer junk bytes read)
        (0 + min v.length (readBytes read)) (readBytes read - min v.length (readBytes read)) iov
      dsimp only
      omega
  case isFalse hzero => simpa using hzero

theorem readBytes_eq_zero {read : Except Errno (List UInt8)} :
    readBytes read = 0 ↔ read = .ok [] := by
  cases read with
  | ok data => simp [readBytes]
  | error e => simp [readBytes]

/-- An empty vector is refused before `read(2)` is asked. -/
theorem readv_agrees_iff (hne : ∀ v ∈ iov, v ≠ []) {read : Except Errno (List UInt8)} :
    ReadvAgrees read iov ↔
      (iov ≠ [] ∧ read = .ok []) ∨ (iov = [] ∧ ∃ e, read = .error e) := by
  by_cases hiov : iov = []
  · subst hiov
    cases read with
    | ok data => simp [ReadvAgrees, readvFaked, vectorBytes, readRet]
    | error e => simp [ReadvAgrees, readvFaked, vectorBytes, readRet]
  · obtain ⟨hbytes, -⟩ := vectorBytes_eq hne hiov
    simp only [hiov, ne_eq, not_false_eq_true, true_and, false_and, or_false]
    constructor
    · intro h
      have hcall := h fun _ => 0
      simp only [readvFaked, hbytes, Bool.not_true, Bool.false_eq_true, if_false] at hcall
      split at hcall
      case isTrue hfreed =>
        exact readBytes_eq_zero.mp ((readvStored_freed hne hiov ..).mp hfreed)
      case isFalse => cases hcall
    · rintro rfl junk
      have hstored := readvStored_filled [] junk (Nat.zero_le iov.flatten.length)
      have hfreed := (readvStored_freed hne hiov junk (.ok []) iov.flatten.length).mpr rfl
      simp only [readvFaked, hbytes, Bool.not_true, Bool.false_eq_true, if_false, hfreed, if_true,
        hstored]

/-! ## The two calls -/

/-- The emulated calls do what the calls of the system do just for a vector of one chunk that is
    written and for a read without bytes. What a read has given is stored rightly in any case: it
    is the release of the buffer that fails then. -/
theorem faked_agree_iff (iov : List (List UInt8)) (hne : ∀ v ∈ iov, v ≠ [])
    (read : Except Errno (List UInt8))
    (hlen : ∀ data, read = .ok data → data.length ≤ iov.flatten.length) :
    (WritevAgrees iov ↔ iov.length = 1) ∧
      (ReadvAgrees read iov ↔
        (iov ≠ [] ∧ read = .ok []) ∨ (iov = [] ∧ ∃ e, read = .error e)) ∧
      (∀ data junk, read = .ok data →
        (readvStored junk read iov iov.flatten.length).1 = filled data iov) := by
  refine ⟨writev_agrees_iff hne, readv_agrees_iff hne, ?_⟩
  rintro data junk rfl
  exact readvStored_filled data junk (hlen data rfl)

/-- One chunk that is written, and a read at the end of the file. -/
theorem faked_agree_iff_empty_read :
    WritevAgrees [[1, 2]] ∧ ReadvAgrees (.ok []) [[1, 2]] ∧
      ∀ junk, (readvStored junk (.ok []) [[1, 2]] 2).1 = [[1, 2]] := by
  obtain ⟨hwrite, hread, hstored⟩ :=
    faked_agree_iff [[1, 2]] (by decide) (.ok []) (by rintro data ⟨⟩; decide)
  exact ⟨hwrite.mpr rfl, hread.mpr (.inl ⟨by simp, rfl⟩), fun junk => hstored [] junk rfl⟩

/-- Two chunks of one byte: the second one is copied over the first one, and one byte of the buffer
    is never set. A read of two bytes ends in a fault. -/
theorem faked_disagree :
    (writevFaked true (fun _ => 0) (fun _ => .ok 2) [[1], [2]]).1 = some [2, 0] ∧
      readvFaked true (fun _ => 0) (.ok [1, 2]) [[8], [9]] = none ∧
      ¬ WritevAgrees [[1], [2]] ∧ ¬ ReadvAgrees (.ok [1, 2]) [[8], [9]] ∧
      ¬ ReadvAgrees (.error .EBADF) [[8], [9]] := by
  refine ⟨by decide, by decide, ?_, ?_, ?_⟩
  · rw [writev_agrees_iff (by decide)]
    decide
  · rw [readv_agrees_iff (by decide)]
    simp
  · rw [readv_agrees_iff (by decide)]
    simp

end Pth.FakedRwv
