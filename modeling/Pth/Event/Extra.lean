-- SUMMARY: What the calls with extra events do to the ring of their caller.
import Pth.Event.Calls
import Pth.Event.Refine
import Pth.Lib.Triple

/-!
# The caller's extra events

Most calls link the caller's ring to a single event of their own and isolate that
event again, which restores every link. `pth_select_ev` isolates the event its
caller has given, so the ring is only restored if that is the only event in it. -/

namespace Pth

open StateT (Triple)

namespace CallM

variable {ε τ : Type} [DecidableEq ε]

/-- The ring of extra events is linked as it was, and the events `own` of the function are not
    linked to it. -/
structure Intact (L : Links ε) (ring own : List ε) : Prop where
  cycle : L.Cycle ring
  apart : ∀ e ∈ own, ∀ x ∈ ring, L.next e ≠ some x ∧ L.prev e ≠ some x

section

variable {L L' : Links ε} {ring own S : List ε} {e : ε}

omit [DecidableEq ε] in
theorem Intact.write (h : Intact L ring own) (hoff : L.EqOff S L') (hS : ∀ x ∈ ring, x ∉ S)
    (hown : ∀ e ∈ own, e ∈ S → ∀ x ∈ ring, L'.next e ≠ some x ∧ L'.prev e ≠ some x) :
    Intact L' ring own where
  cycle := h.cycle.congr fun x hx => hoff x (hS x hx)
  apart e he x hx := by
    by_cases heS : e ∈ S
    · exact hown e he heS x hx
    · rw [(hoff e heS).1, (hoff e heS).2]
      exact h.apart e he x hx

/-- An event of the function is made single. -/
theorem Intact.self (h : Intact L ring own) (he : e ∉ ring) :
    Intact ((L.setNext e (some e)).setPrev e (some e)) ring own := by
  refine h.write (S := [e]) (Links.cycle_self L e).2 ?_ ?_
  · rintro x hx hxe
    obtain rfl : x = e := by simpa using hxe
    exact he hx
  · rintro e' - he' x hx
    obtain rfl : e' = e := by simpa using he'
    have hne : e' ≠ x := (ne_of_mem_of_not_mem hx he).symm
    simp [hne]

end

/-! ## Steps -/

/-- What a call does to the events, if it returns. -/
def OnEvents {α : Type} (P : Events ε τ → Prop) (m : CallM ε τ α) (Q : α → Events ε τ → Prop) :
    Prop :=
  Triple (fun c => P c.evs) m fun a c => Q a c.evs

section

variable {α β : Type} {P : Events ε τ → Prop} {w : World ε τ}

omit [DecidableEq ε] in
theorem OnEvents.bind {m : CallM ε τ α} {f : α → CallM ε τ β} {R : α → Events ε τ → Prop}
    {Q : β → Events ε τ → Prop} (hm : OnEvents P m R) (hf : ∀ a, OnEvents (R a) (f a) Q) :
    OnEvents P (m >>= f) Q := Triple.bind hm hf

omit [DecidableEq ε] in
theorem onEvents_onEvents {f : Events ε τ → Option (α × Events ε τ)} {Q : α → Events ε τ → Prop}
    (h : ∀ s r, P s → f s = some r → Q r.1 r.2) : OnEvents P (onEvents f) Q := by
  intro c a c' hP hrun
  obtain ⟨r, hr, heq⟩ := Option.map_eq_some_iff.mp hrun
  obtain ⟨rfl, rfl⟩ := Prod.mk.inj heq
  exact h c.evs r hP hr

omit [DecidableEq ε] in
theorem onEvents_ask : OnEvents P ask fun _ => P := by
  intro c k c' hP hrun
  obtain ⟨rfl, rfl⟩ := Prod.mk.inj (Option.some.inj hrun)
  exact hP

omit [DecidableEq ε] in
theorem onEvents_sc : OnEvents P (sc w) fun _ => P :=
  .bind (R := fun _ => P) onEvents_ask fun _ => Triple.pure fun _ h => h

omit [DecidableEq ε] in
theorem onEvents_scRetry {n : ℕ} : OnEvents P (scRetry w n) fun _ => P := by
  induction n with
  | zero => exact Triple.failure
  | succ n ih =>
    refine .bind onEvents_sc fun r => ?_
    split
    · exact ih
    · exact Triple.pure fun _ h => h

end

/-- What a call does to the links of the events, if it returns. -/
def OnLinks {α : Type} (P : Links ε → Prop) (m : CallM ε τ α) (Q : α → Links ε → Prop) : Prop :=
  Triple (fun c => P c.evs.link) m fun a c => Q a c.evs.link

section

variable {α β : Type} {P : Links ε → Prop} {w : World ε τ}

omit [DecidableEq ε] in
theorem OnLinks.pure {a : α} {Q : α → Links ε → Prop} (h : ∀ L, P L → Q a L) :
    OnLinks P (Pure.pure a : CallM ε τ α) Q := Triple.pure fun _ hP => h _ hP

omit [DecidableEq ε] in
theorem OnLinks.bind {m : CallM ε τ α} {f : α → CallM ε τ β} {R : α → Links ε → Prop}
    {Q : β → Links ε → Prop} (hm : OnLinks P m R) (hf : ∀ a, OnLinks (R a) (f a) Q) :
    OnLinks P (m >>= f) Q := Triple.bind hm hf

omit [DecidableEq ε] in
theorem OnLinks.mono {m : CallM ε τ α} {P' : Links ε → Prop} {Q Q' : α → Links ε → Prop}
    (h : OnLinks P m Q) (hP : ∀ L, P' L → P L) (hQ : ∀ a L, Q a L → Q' a L) : OnLinks P' m Q' :=
  Triple.mono h (fun _ => hP _) fun a _ => hQ a _

omit [DecidableEq ε] in
theorem OnLinks.assume {m : CallM ε τ α} {p : Prop} {Q : α → Links ε → Prop}
    (h : p → OnLinks P m Q) : OnLinks (fun L => p ∧ P L) m Q := Triple.assume h

omit [DecidableEq ε] in
theorem onLinks_onEvents {f : Events ε τ → Option (α × Events ε τ)} {Q : α → Links ε → Prop}
    (h : ∀ s a s', P s.link → f s = some (a, s') → Q a s'.link) : OnLinks P (onEvents f) Q :=
  onEvents_onEvents (P := fun s => P s.link) (Q := fun a s => Q a s.link) fun s r => h s r.1 r.2

omit [DecidableEq ε] in
theorem onLinks_ask : OnLinks P (ask : CallM ε τ ℕ) fun _ => P :=
  onEvents_ask (P := fun s => P s.link)

omit [DecidableEq ε] in
theorem onLinks_wait {ev : Option ε} : OnLinks P (wait w ev) fun _ => P := by
  cases ev with
  | none => exact .pure fun _ h => h
  | some e =>
    refine onLinks_ask.bind fun k => onLinks_onEvents fun s _ s' hP hrun => ?_
    obtain ⟨-, rfl⟩ := Prod.mk.inj (Option.some.inj hrun)
    exact hP

omit [DecidableEq ε] in
theorem onLinks_status {ev : Option ε} : OnLinks P (status ev : CallM ε τ Status) fun _ => P := by
  cases ev with
  | none => exact .pure fun _ h => h
  | some e =>
    rw [status]
    refine onLinks_onEvents fun s _ s' hP hrun => ?_
    obtain ⟨-, rfl⟩ := Prod.mk.inj (Option.some.inj hrun)
    exact hP

omit [DecidableEq ε] in
theorem onLinks_selectCount {ev : Option ε} :
    OnLinks P (selectCount ev : CallM ε τ ℤ) fun _ => P := by
  cases ev with
  | none => exact .pure fun _ h => h
  | some e =>
    rw [selectCount]
    refine onLinks_onEvents fun s _ s' hP hrun => ?_
    split at hrun
    · obtain ⟨-, rfl⟩ := Prod.mk.inj (Option.some.inj hrun)
      exact hP
    · obtain ⟨-, rfl⟩ := Prod.mk.inj (Option.some.inj hrun)
      exact hP

omit [DecidableEq ε] in
theorem onLinks_sc : OnLinks P (sc w) fun _ => P := onEvents_sc (P := fun s => P s.link)

omit [DecidableEq ε] in
theorem onLinks_scRetry {n : ℕ} : OnLinks P (scRetry w n) fun _ => P :=
  onEvents_scRetry (P := fun s => P s.link)

omit [DecidableEq ε] in
theorem onLinks_openMode {fd : ℤ} : OnLinks P (openMode w fd) fun _ => P := by
  refine onLinks_ask.bind fun k => ?_
  split
  · exact .pure fun _ h => h
  · split
    · exact .pure fun _ h => h
    · exact .pure fun _ h => h

end

/-! ## Waiting with extra events -/

section

variable {w : World ε τ} {ring own : List ε} {ev x : ε}

/-- The structure under the key is made single unless there is no memory for it, and returned
    unless its arguments are refused. -/
theorem onLinks_staticEvent_of {P R S : Links ε → Prop} {spec : EventSpec τ}
    (hkeep : ∀ L, P L → R L)
    (hself : ∀ L, P L → R ((L.setNext ev (some ev)).setPrev ev (some ev)))
    (hok : ∀ L, P L → S ((L.setNext ev (some ev)).setPrev ev (some ev))) :
    OnLinks P (staticEvent w ev spec) fun r L => R L ∧ ∀ e ∈ r.toOption, e = ev ∧ S L := by
  refine onLinks_ask.bind fun k => onLinks_onEvents fun s r s' hP hrun => ?_
  split at hrun
  · rw [Events.event] at hrun
    obtain ⟨L, hL, hs⟩ := Option.map_eq_some_iff.mp hrun
    obtain ⟨rfl, rfl⟩ := Prod.mk.inj hs
    obtain rfl := Option.some.inj hL
    refine ⟨hself _ hP, fun e he => ⟨?_, hok _ hP⟩⟩
    cases hargs : spec.args (w.isOpen k) with
    | error err => simp [hargs, Except.map, Except.toOption] at he
    | ok args => simpa [hargs, Except.map, Except.toOption, eq_comm] using he
  · obtain ⟨rfl, rfl⟩ := Prod.mk.inj (Option.some.inj hrun)
    exact ⟨hkeep _ hP, by simp [Except.toOption]⟩

theorem onLinks_staticEvent {spec : EventSpec τ} (hev : ev ∉ ring) :
    OnLinks (fun L => Intact L ring own) (staticEvent w ev spec) fun r L =>
      Intact L ring own ∧ ∀ e ∈ r.toOption, e = ev ∧ L.Cycle [ev] :=
  onLinks_staticEvent_of (fun _ h => h) (fun _ h => h.self hev)
    fun L _ => (Links.cycle_self L ev).1

/-- Isolating the event gives links that meet `P`. -/
def Isolates (P : Links ε → Prop) (ev : ε) (L : Links ε) : Prop :=
  ∃ L₀ q, P L₀ ∧ Events.isolateLink L ev = some (q, L₀)

theorem onLinks_isolate {P : Links ε → Prop} {ev : ε} :
    OnLinks (Isolates P ev) (onEvents fun s : Events ε τ => s.isolate (some ev)) fun _ => P := by
  refine onLinks_onEvents fun s _ s' hP hrun => ?_
  obtain ⟨L₀, q, hP₀, hiso⟩ := hP
  obtain ⟨r', hr', hs⟩ := Option.map_eq_some_iff.mp hrun
  obtain ⟨-, rfl⟩ := Prod.mk.inj hs
  obtain rfl : (q, L₀) = r' := by simpa [hiso] using hr'
  exact hP₀

theorem onLinks_concat {P : Links ε → Prop} {ev : ε} (rest : List ε)
    (hP : ∀ L, P L → L.Cycle [ev] ∧ L.Cycle (x :: rest) ∧ (ev :: x :: rest).Nodup) :
    OnLinks P (onEvents fun s : Events ε τ => s.concat (some ev) [x]) fun r L =>
      r = .ok ev ∧ Isolates P ev L := by
  refine onLinks_onEvents fun s _ s' hs hrun => ?_
  obtain ⟨hself, hring, hnd⟩ := hP s.link hs
  obtain ⟨L₁, hconcat, hisolate⟩ := Events.isolateLink_concatLink hself hring hnd
  obtain ⟨L', hL', hs'⟩ := Option.map_eq_some_iff.mp hrun
  obtain ⟨rfl, rfl⟩ := Prod.mk.inj hs'
  obtain rfl : L₁ = L' := by simpa [hconcat] using hL'
  exact ⟨rfl, s.link, _, hs, hisolate⟩

/-- While a single event waits together with a ring, nothing changes in the end. -/
theorem onLinks_waitExtra {P : Links ε → Prop} {e : Option ε} (rest : List ε)
    (hnd : ∀ L, P L → ∀ ev ∈ e, L.Cycle [ev] ∧ L.Cycle (x :: rest) ∧ (ev :: x :: rest).Nodup) :
    OnLinks P (waitExtra w e (some x)) fun _ => P := by
  cases e with
  | none =>
    refine .bind (R := fun _ => P) (onLinks_onEvents fun s _ s' hP hrun => ?_) fun _ =>
      onLinks_wait.bind fun _ => .bind (R := fun _ => P)
        (onLinks_onEvents fun s _ s' hP hrun => ?_) fun _ => onLinks_status
    · obtain ⟨-, rfl⟩ := Prod.mk.inj (Option.some.inj hrun)
      exact hP
    · obtain ⟨-, rfl⟩ := Prod.mk.inj (Option.some.inj hrun)
      exact hP
  | some ev =>
    refine (onLinks_concat rest fun L hL => hnd L hL ev rfl).bind fun _ => onLinks_wait.bind fun _ =>
      .bind (R := fun _ => P) (onLinks_isolate.mono (fun L h => h.2) fun _ _ h => h) fun _ =>
        onLinks_status

omit [DecidableEq ε] in
theorem onLinks_waitExtra_none {P : Links ε → Prop} {e : Option ε} [DecidableEq ε] :
    OnLinks P (waitExtra w e none) fun _ => P :=
  onLinks_wait.bind fun _ => onLinks_status

end

/-! ## The calls that isolate their own event -/

/-- The call leaves the ring of extra events as it is. -/
def Keeps {α : Type} (ring own : List ε) (m : CallM ε τ α) : Prop :=
  OnLinks (fun L => Intact L ring own) m fun _ L => Intact L ring own

section

variable {α β : Type} {w : World ε τ} {own rest : List ε} {ev x : ε} {n : ℕ}

omit [DecidableEq ε] in
theorem Keeps.pure {ring : List ε} {a : α} : Keeps ring own (Pure.pure a : CallM ε τ α) :=
  OnLinks.pure fun _ h => h

omit [DecidableEq ε] in
theorem Keeps.bind {ring : List ε} {m : CallM ε τ α} {f : α → CallM ε τ β}
    (hm : Keeps ring own m) (hf : ∀ a, Keeps ring own (f a)) : Keeps ring own (m >>= f) :=
  OnLinks.bind hm hf

/-- An event of the function waits together with the ring. -/
theorem keeps_waitStatic {spec : EventSpec τ} {f : Except Errno ε → Status → CallM ε τ β}
    (hnd : (ev :: x :: rest).Nodup) (hf : ∀ r st, Keeps (x :: rest) own (f r st)) :
    Keeps (x :: rest) own (staticEvent w ev spec >>= fun e =>
      waitExtra w e.toOption (some x) >>= f e) := by
  refine (onLinks_staticEvent (List.nodup_cons.mp hnd).1).bind fun r => ?_
  refine (onLinks_waitExtra rest ?_).bind fun st => (hf r st).mono ?_ fun _ _ h => h
  · rintro L ⟨hL, hself⟩ e he
    obtain ⟨rfl, hcycle⟩ := hself e he
    exact ⟨hcycle, hL.cycle, hnd⟩
  · exact fun L h => h.1

/-- The same where the null pointer is not waited for. -/
theorem keeps_waitStatic_ok {spec : EventSpec τ} {f : Errno → CallM ε τ β}
    {g : Status → CallM ε τ β} (hnd : (ev :: x :: rest).Nodup)
    (hf : ∀ e, Keeps (x :: rest) own (f e)) (hg : ∀ st, Keeps (x :: rest) own (g st)) :
    Keeps (x :: rest) own (staticEvent w ev spec >>= fun
      | .error e => f e
      | .ok e => waitExtra w (some e) (some x) >>= g) := by
  refine (onLinks_staticEvent (List.nodup_cons.mp hnd).1).bind fun r => ?_
  cases r with
  | error e => exact (hf e).mono (fun L h => h.1) fun _ _ h => h
  | ok e =>
    refine (onLinks_waitExtra rest ?_).bind fun st => (hg st).mono ?_ fun _ _ h => h
    · rintro L ⟨hL, hself⟩ e' he'
      obtain ⟨rfl, hcycle⟩ := hself e' he'
      exact ⟨hcycle, hL.cycle, hnd⟩
    · exact fun L h => h.1

omit [DecidableEq ε] in
/-- A descriptor that is not valid is an error, whatever is done with the others. -/
theorem keeps_openMode {ring : List ε} {fd : ℤ} {a : α} {f : FdMode → CallM ε τ α}
    (hf : ∀ mode, Keeps ring own (f mode)) :
    Keeps ring own (openMode w fd >>= fun
      | none => Pure.pure a
      | some mode => f mode) := by
  refine .bind onLinks_openMode fun mode => ?_
  cases mode with
  | none => exact .pure
  | some mode => exact hf mode

theorem keeps_sleepFd {goal : FdGoal} {fd : ℤ} (hnd : (ev :: x :: rest).Nodup) :
    Keeps (x :: rest) own (sleepFd w goal fd ev (some x)) :=
  keeps_waitStatic hnd fun _ _ => .pure

/-- Sleeping for the descriptor, and then the system call unless the sleep was interrupted. -/
theorem keeps_sleepFd_scRetry {goal : FdGoal} {fd : ℤ} (hnd : (ev :: x :: rest).Nodup) :
    Keeps (x :: rest) own (do
      if ← sleepFd w goal fd ev (some x) then pure (.error .EINTR) else scRetry w n) := by
  refine (keeps_sleepFd hnd).bind fun b => ?_
  split
  · exact .pure
  · exact onLinks_scRetry

theorem keeps_sigwaitEv {set : Option SigSet} {sigp : Bool} (hnd : (ev :: x :: rest).Nodup) :
    Keeps (x :: rest) own (sigwaitEv w set sigp ev (some x)) := by
  unfold sigwaitEv
  split
  · refine .bind onLinks_ask fun k => ?_
    split
    · exact .pure
    · refine keeps_waitStatic_ok hnd (fun e => .pure) fun st => ?_
      split
      · exact .pure
      · exact .pure
  · exact .pure

theorem keeps_connectEv {s : ℤ} (hnd : (ev :: x :: rest).Nodup) :
    Keeps (x :: rest) own (connectEv w n s ev (some x)) := by
  refine keeps_openMode fun mode => .bind onLinks_scRetry fun rv => ?_
  split
  · refine keeps_waitStatic_ok hnd (fun e => .pure) fun st => ?_
    split
    · exact .pure
    · refine .bind onLinks_sc fun r => ?_
      split
      · exact .pure
      · exact .pure
      · exact .pure
  · exact .pure

theorem keeps_readEv {fd : ℤ} {nbytes : ℕ} (hnd : (ev :: x :: rest).Nodup) :
    Keeps (x :: rest) own (readEv w n fd nbytes ev (some x)) := by
  unfold readEv
  split
  · exact .pure
  · refine keeps_openMode fun mode => ?_
    split
    · refine .bind onLinks_scRetry fun r => ?_
      split
      · split
        · exact .pure
        · exact onLinks_scRetry
      · exact keeps_sleepFd_scRetry hnd
      · exact onLinks_scRetry
    · exact onLinks_scRetry

theorem keeps_readvEv {fd : ℤ} {iov : List ℕ} (hnd : (ev :: x :: rest).Nodup) :
    Keeps (x :: rest) own (readvEv w n fd iov ev (some x)) := by
  unfold readvEv
  split
  · exact .pure
  · refine keeps_openMode fun mode => ?_
    split
    · refine .bind onLinks_scRetry fun r => ?_
      split
      · exact onLinks_scRetry
      · exact keeps_sleepFd_scRetry hnd
    · exact onLinks_scRetry

theorem keeps_recvfromEv {fd : ℤ} {nbytes : ℕ} (hnd : (ev :: x :: rest).Nodup) :
    Keeps (x :: rest) own (recvfromEv w n fd nbytes ev (some x)) := by
  unfold recvfromEv
  split
  · exact .pure
  · refine keeps_openMode fun mode => ?_
    split
    · refine .bind onLinks_ask fun k => ?_
      split
      · exact .pure
      · refine .bind onLinks_scRetry fun r => ?_
        split
        · split
          · exact .pure
          · exact onLinks_scRetry
        · exact keeps_sleepFd_scRetry hnd
        · exact onLinks_scRetry
    · exact onLinks_scRetry

theorem keeps_writeLoop {fd : ℤ} {k nbytes rv : ℕ} {idle : Bool}
    (hnd : (ev :: x :: rest).Nodup) :
    Keeps (x :: rest) own (writeLoop w n fd ev (some x) k idle nbytes rv) := by
  induction k generalizing idle nbytes rv with
  | zero => exact Triple.failure
  | succ k ih =>
    rw [writeLoop]
    refine .bind ?_ fun b => ?_
    · split
      · exact keeps_sleepFd hnd
      · exact .pure
    · split
      · exact .pure
      · refine .bind onLinks_scRetry fun r => ?_
        split
        · split
          · exact ih
          · exact .pure
        · split
          · exact .pure
          · exact .pure

theorem keeps_writeEv {fd : ℤ} {nbytes : ℕ} (hnd : (ev :: x :: rest).Nodup) :
    Keeps (x :: rest) own (writeEv w n fd nbytes ev (some x)) := by
  unfold writeEv
  split
  · exact .pure
  · refine keeps_openMode fun mode => ?_
    split
    · refine .bind onLinks_scRetry fun r => ?_
      split
      · split
        · exact .pure
        · exact keeps_writeLoop hnd
      · exact keeps_writeLoop hnd
    · exact onLinks_scRetry

theorem keeps_writevEv {fd : ℤ} {iov : List ℕ} (hnd : (ev :: x :: rest).Nodup) :
    Keeps (x :: rest) own (writevEv w n fd iov ev (some x)) := by
  unfold writevEv
  split
  · exact .pure
  · refine keeps_openMode fun mode => ?_
    split
    · refine .bind onLinks_ask fun k => ?_
      split
      · exact .pure
      · refine .bind onLinks_scRetry fun r => ?_
        split
        · exact keeps_writeLoop hnd
        · exact keeps_writeLoop hnd
    · exact onLinks_scRetry

theorem keeps_sendtoEv {fd : ℤ} {nbytes : ℕ} (hnd : (ev :: x :: rest).Nodup) :
    Keeps (x :: rest) own (sendtoEv w n fd nbytes ev (some x)) := by
  unfold sendtoEv
  split
  · exact .pure
  · refine keeps_openMode fun mode => ?_
    split
    · refine .bind onLinks_ask fun k => ?_
      split
      · exact .pure
      · refine .bind onLinks_scRetry fun r => ?_
        split
        · split
          · exact .pure
          · exact keeps_writeLoop hnd
        · exact keeps_writeLoop hnd
    · exact onLinks_scRetry

/-- The event of `pth_accept_ev` is linked to the extra events in the first round only. -/
theorem onLinks_acceptLoop {s : ℤ} {mode : FdMode} {e : Option ε}
    (hnd : (ev :: x :: rest).Nodup) :
    OnLinks (fun L => Intact L (x :: rest) own ∧ ∀ e' ∈ e, e' = ev ∧ L.Cycle [ev])
      (acceptLoop w s mode ev (some x) n e) fun _ L => Intact L (x :: rest) own := by
  induction n generalizing e with
  | zero => exact Triple.failure
  | succ n ih =>
    let P : Links ε → Prop := fun L => Intact L (x :: rest) own ∧ L.Cycle [ev]
    refine onLinks_sc.bind fun rv => ?_
    split
    · refine .bind (R := fun r L => match r with
        | .error _ => Intact L (x :: rest) own
        | .ok e => e = ev ∧ Isolates P ev L) ?_ fun r => ?_
      · cases e with
        | some e =>
          refine .pure fun L hL => ?_
          obtain ⟨rfl, hself⟩ := hL.2 e rfl
          refine ⟨rfl, L, none, ⟨hL.1, hself⟩, ?_⟩
          simp [Events.isolateLink, Links.cycle_singleton.mp hself]
        | none =>
          refine .bind ((onLinks_staticEvent (List.nodup_cons.mp hnd).1).mono (fun L h => h.1)
            fun _ _ h => h) fun r => ?_
          cases r with
          | error err => exact .pure fun L hL => hL.1
          | ok e =>
            refine (OnLinks.assume (p := e = ev) (P := P) ?_).mono (fun L hL => ?_)
              fun _ _ h => h
            · rintro rfl
              refine (onLinks_concat rest fun L hL => ⟨hL.2, hL.1.cycle, hnd⟩).mono
                (fun _ h => h) fun r L hL => ?_
              obtain ⟨rfl, hiso⟩ := hL
              exact ⟨rfl, hiso⟩
            · obtain ⟨rfl, hself⟩ := hL.2 e rfl
              exact ⟨rfl, hL.1, hself⟩
      · cases r with
        | error err => exact .pure fun L hL => hL
        | ok e =>
          refine OnLinks.assume fun he => onLinks_wait.bind fun _ => ?_
          subst he
          refine onLinks_isolate.bind fun _ => onLinks_status.bind fun st => ?_
          split
          · exact .pure fun L hL => hL.1
          · refine ih.mono (fun L hL => ⟨hL.1, fun e' he' => ⟨?_, hL.2⟩⟩) fun _ _ h => h
            exact (Option.some.inj he').symm
    · exact .pure fun L hL => hL.1

theorem keeps_acceptEv {s : ℤ} (hnd : (ev :: x :: rest).Nodup) :
    Keeps (x :: rest) own (acceptEv w n s ev (some x)) := by
  refine keeps_openMode fun mode => ?_
  exact (onLinks_acceptLoop hnd).mono (fun L hL => ⟨hL, by simp⟩) fun _ _ h => h

theorem keeps_selectDelay {t : Time} (hnd : (ev :: x :: rest).Nodup) :
    Keeps (x :: rest) own (selectDelay w n t ev (some x)) := by
  unfold selectDelay
  split
  · exact .bind onLinks_scRetry fun _ => .pure
  · refine .bind onLinks_ask fun k => keeps_waitStatic hnd fun _ st => ?_
    split
    · exact .pure
    · exact .pure

end

section

variable [DecidableEq τ] {w : World ε τ} {own rest : List ε} {ev ev' x : ε} {n : ℕ} {current : τ}

theorem keeps_mutexAcquireLoop {m : ℕ} (hnd : (ev :: x :: rest).Nodup) :
    Keeps (x :: rest) own (mutexAcquireLoop w current m ev (some x) n) := by
  induction n with
  | zero => exact Triple.failure
  | succ n ih =>
    refine keeps_waitStatic hnd fun _ st => .bind onLinks_ask fun k => ?_
    split
    · exact Triple.failure
    · exact .pure
    · exact ih

theorem keeps_mutexAcquire {s : MutexState τ ℕ} {mutex : Option ℕ} {tryonly : Bool}
    (hnd : (ev :: x :: rest).Nodup) :
    Keeps (x :: rest) own (mutexAcquire w n s current mutex tryonly ev (some x)) := by
  unfold mutexAcquire
  split
  · exact Triple.failure
  · exact .pure
  · exact keeps_mutexAcquireLoop hnd

theorem keeps_condReacquireLoop {ring : List ε} {c m : ℕ} (hev : ev' ∉ ring) :
    Keeps ring own (condReacquireLoop w current c m ev' n) := by
  induction n with
  | zero => exact Triple.failure
  | succ n ih =>
    refine (onLinks_staticEvent hev).bind fun r => onLinks_waitExtra_none.bind fun _ => ?_
    refine onLinks_ask.bind fun k => OnLinks.mono (m := _) ?_ (fun L h => h.1) fun _ _ h => h
    split
    · exact Triple.failure
    · exact Keeps.pure
    · exact ih

theorem keeps_condAwait {s : SyncState τ ℕ ℕ} {cond mutex : Option ℕ}
    (hnd : (ev :: x :: rest).Nodup) (hev : ev' ∉ x :: rest) :
    Keeps (x :: rest) own (condAwait w n s current cond mutex ev ev' (some x)) := by
  unfold condAwait
  split
  · exact .pure
  · refine keeps_waitStatic hnd fun _ _ => .bind onLinks_ask fun k => ?_
    split
    · exact Triple.failure
    · exact .pure
    · exact keeps_condReacquireLoop hev
  · exact Triple.failure

end

/-! ## Select -/

section

variable {w : World ε τ} {own rest : List ε} {ev ev' x : ε} {n : ℕ}

/-- The events are linked into rings, the given ones among them, and the other events of the
    function are not linked to `x`. -/
structure Tame (L : Links ε) (own : List ε) (x : ε) (R : List (List ε)) : Prop where
  rings : L.Rings R
  apart : ∀ e ∈ own, e ∉ R.flatten → L.next e ≠ some x ∧ L.prev e ≠ some x

/-- The events `U` are in the rings, and `x` is alone if `alone` says so. -/
def Parted (own : List ε) (x : ε) (U : List ε) (alone : Prop) (L : Links ε) : Prop :=
  ∃ R, Tame L own x R ∧ (∀ u ∈ U, u ∈ R.flatten) ∧ (alone → [x] ∈ R)

theorem onLinks_isolateSome {e : Option ε} {U : List ε} {alone : Prop} (he : ∀ e' ∈ e, e' ∈ U)
    (halone : e ≠ some x → alone) :
    OnLinks (Parted own x U alone) (isolateSome e : CallM ε τ Unit)
      fun _ => Parted own x U True := by
  cases e with
  | none =>
    exact .pure fun L ⟨R, hR, hU, hx⟩ => ⟨R, hR, hU, fun _ => hx (halone (by simp))⟩
  | some e =>
    refine .bind (onLinks_onEvents fun s _ s' hP hrun => ?_) fun _ => .pure fun _ h => h
    obtain ⟨R, hR, hU, hx⟩ := hP
    obtain ⟨L', hiso, hrings, hperm, hoff⟩ := EventRings.isolate_rings hR.rings (hU e (he e rfl))
    obtain ⟨r, hr, hs⟩ := Option.map_eq_some_iff.mp hrun
    obtain ⟨-, rfl⟩ := Prod.mk.inj hs
    obtain rfl : (_, L') = r := by simpa [hiso] using hr
    refine ⟨_, ⟨hrings, fun e' he' hnot => ?_⟩, fun u hu => hperm.mem_iff.mpr (hU u hu),
      fun _ => ?_⟩
    · have hnot' : e' ∉ R.flatten := fun h => hnot (hperm.mem_iff.mpr h)
      rw [(hoff e' hnot').1, (hoff e' hnot').2]
      exact hR.apart e' he' hnot'
    · by_cases hex : e = x
      · simp [EventRings.isolate, hex]
      · exact EventRings.mem_isolate (hx (halone (by simpa using hex))) (by simpa using hex)

/-- Rings that are concatenated, beside the others. -/
theorem onLinks_concatTame {e : ε} {A rs : List ε} {R : List (List ε)} (Rs : List (List ε))
    (hheads : Rs.map List.head? = rs.map some) :
    OnLinks (fun L => Tame L own x ((e :: A) :: Rs ++ R))
      (onEvents fun s : Events ε τ => s.concat (some e) rs)
      fun _ L => Tame L own x ((e :: (Rs.flatten ++ A)) :: R) := by
  refine onLinks_onEvents fun s _ s' hP hrun => ?_
  obtain ⟨L', hlink, hrings, hoff⟩ := Events.concatLink_rings hP.rings hheads
  obtain ⟨L₁, hL₁, hs⟩ := Option.map_eq_some_iff.mp hrun
  obtain ⟨-, rfl⟩ := Prod.mk.inj hs
  obtain rfl : L' = L₁ := by simpa [hlink] using hL₁
  refine ⟨hrings, fun e' he' hnot => ?_⟩
  simp only [List.flatten_cons, List.mem_append, List.mem_cons, not_or] at hnot
  have hnot' : e' ∉ e :: A ++ Rs.flatten := by simp [hnot]
  have hnotR : e' ∉ ((e :: A) :: Rs ++ R).flatten := by
    simp only [List.cons_append, List.flatten_cons, List.flatten_append, List.mem_append,
      List.mem_cons, not_or]
    tauto
  rw [(hoff e' hnot').1, (hoff e' hnot').2]
  exact hP.apart e' he' hnotR

theorem Tame.self {L : Links ε} {R : List (List ε)} (h : Tame L own x R) (hev : ev ∉ R.flatten)
    (hx : ev ≠ x) :
    Tame ((L.setNext ev (some ev)).setPrev ev (some ev)) own x R ∧
      Tame ((L.setNext ev (some ev)).setPrev ev (some ev)) own x ([ev] :: R) := by
  obtain ⟨hself, hoff⟩ := Links.cycle_self L ev
  have hrings : ((L.setNext ev (some ev)).setPrev ev (some ev)).Rings R := by
    refine h.rings.congr hoff fun y hy hmem => ?_
    obtain rfl : y = ev := by simpa using hmem
    exact hev hy
  refine ⟨⟨hrings, fun e he hnot => ?_⟩, ⟨?_, fun e he hnot => ?_⟩⟩
  · by_cases heq : e = ev
    · simp [heq, hx]
    · simpa [heq] using h.apart e he hnot
  · exact Links.rings_cons.mpr ⟨⟨hself, by simp, by simp⟩, hrings, by simpa using hev⟩
  · simp only [List.flatten_cons, List.singleton_append, List.mem_cons, not_or] at hnot
    simpa [hnot.1] using h.apart e he hnot.2

omit [DecidableEq ε] in
theorem Tame.perm {L : Links ε} {R R' : List (List ε)} (h : Tame L own x R) (hp : R.Perm R') :
    Tame L own x R' where
  rings := h.rings.perm hp
  apart e he hnot := h.apart e he fun hmem => hnot (hp.flatten.mem_iff.mp hmem)

/-- The timeout event joins the event for the descriptors, where there is one. -/
theorem onLinks_selectTimeout {timeout : Option Time} {e : Option ε}
    (hev : ev' ∉ (Links.addRing e.toList [x :: rest]).flatten) :
    OnLinks (fun L => Tame L own x (Links.addRing e.toList [x :: rest]))
      (selectTimeout w timeout ev' e)
      fun et L => Tame L own x (Links.addRing (e.toList ++ et.toList) [x :: rest]) := by
  have hx : ev' ≠ x := by
    rintro rfl
    simp at hev
  cases timeout with
  | none => exact .pure fun L hL => by simpa using hL
  | some t =>
    refine onLinks_ask.bind fun k => (onLinks_staticEvent_of
      (S := fun L => Tame L own x ([ev'] :: Links.addRing e.toList [x :: rest])) (fun _ h => h)
      (fun L hL => (hL.self hev hx).1) fun L hL => (hL.self hev hx).2).bind fun r => ?_
    refine .bind (R := fun _ L =>
      Tame L own x (Links.addRing (e.toList ++ r.toOption.toList) [x :: rest])) ?_
      fun _ => .pure fun L hL => hL
    cases e with
    | none =>
      refine onLinks_onEvents fun s _ s' hP hrun => ?_
      obtain ⟨-, rfl⟩ := Prod.mk.inj (Option.some.inj hrun)
      cases r with
      | error err => exact hP.1
      | ok t =>
        obtain ⟨rfl, hP'⟩ := hP.2 t rfl
        exact hP'
    | some e =>
      cases r with
      | error err =>
        exact (onLinks_concatTame (A := []) [] rfl).mono (fun L hL => hL.1) fun _ _ h => h
      | ok t =>
        refine (OnLinks.assume (p := t = ev') ?_).mono (fun L hL => hL.2 t rfl) fun _ _ h => h
        rintro rfl
        refine (onLinks_concatTame (A := []) [[t]] rfl).mono (fun L hL => ?_) fun _ _ h => h
        exact hL.perm (List.Perm.swap _ _ _)

theorem onLinks_concatExtra {e et : Option ε} :
    OnLinks (fun L => Tame L own x (Links.addRing (e.toList ++ et.toList) [x :: rest]))
      (concatExtra e (some x) : CallM ε τ Unit)
      fun _ => Parted own x (x :: et.toList) False := by
  cases e with
  | none =>
    refine .bind (onLinks_onEvents fun s _ s' hP hrun => ?_) fun _ => .pure fun _ h => h
    obtain ⟨-, rfl⟩ := Prod.mk.inj (Option.some.inj hrun)
    refine ⟨_, hP, fun u hu => ?_, False.elim⟩
    rcases List.mem_cons.mp hu with rfl | hu
    · simp
    · simp [hu]
  | some e =>
    refine .bind (onLinks_concatTame (A := et.toList) (R := []) [x :: rest] rfl) fun _ =>
      .pure fun L hL => ⟨_, hL, fun u hu => ?_, False.elim⟩
    rcases List.mem_cons.mp hu with rfl | hu
    · simp
    · simp only [List.flatten_cons, List.mem_append, List.mem_cons]
      tauto

omit [DecidableEq ε] in
/-- A ring of one event is reached from none of the other events. -/
theorem Tame.intact {L : Links ε} {R : List (List ε)} (h : Tame L own x R) (hx : [x] ∈ R)
    (hown : x ∉ own) : Intact L [x] own where
  cycle := h.rings.cycle _ hx
  apart e he y hy := by
    obtain rfl : y = x := by simpa using hy
    by_cases hmem : e ∈ R.flatten
    · obtain ⟨l, hl, hel⟩ := List.mem_flatten.mp hmem
      obtain ⟨⟨z, hnext⟩, ⟨z', hprev⟩⟩ := (h.rings.cycle l hl).exists_edges hel
      have hself := Links.cycle_singleton.mp (h.rings.cycle _ hx)
      have hne : e ≠ y := by rintro rfl; exact hown he
      refine ⟨fun heq => hne ?_, fun heq => hne ?_⟩
      · obtain rfl : z = y := by simpa [hnext.1] using heq
        simpa [hnext.2] using hself.2
      · obtain rfl : z' = y := by simpa [hprev.2] using heq
        simpa [hprev.1] using hself.1
    · exact h.apart e he hmem

/-- Whatever the ring of extra events is, its first event ends up alone. -/
theorem onLinks_selectWait {a : SelectArgs} (hnd : (ev :: ev' :: x :: rest).Nodup) :
    OnLinks (fun L => Intact L (x :: rest) [ev, ev']) (selectWait w a ev ev' (some x))
      fun _ L => Intact L [x] [ev, ev'] := by
  simp only [List.nodup_cons, List.mem_cons, not_or] at hnd
  have hring : (x :: rest).Nodup := List.nodup_cons.mpr hnd.2.2
  have hev : ev ∉ x :: rest := by simp [hnd.1]
  refine (onLinks_staticEvent hev).bind fun r => ?_
  refine (OnLinks.assume (p := ∀ e ∈ r.toOption, e = ev)
    (P := fun L => Tame L [ev, ev'] x (Links.addRing r.toOption.toList [x :: rest])) ?_).mono ?_
    fun _ _ h => h
  · intro hr
    have hev' : ev' ∉ (Links.addRing r.toOption.toList [x :: rest]).flatten := by
      simp only [Links.flatten_addRing, List.flatten_cons, List.flatten_nil, List.append_nil,
        List.mem_append, Option.mem_toList, List.mem_cons, not_or]
      exact ⟨fun h => hnd.1.1 (hr ev' h).symm, hnd.2.1⟩
    refine (onLinks_selectTimeout hev').bind fun et => onLinks_concatExtra.bind fun _ =>
      onLinks_wait.bind fun _ => (onLinks_isolateSome (by simp) (by simp)).bind fun _ =>
      (onLinks_isolateSome (fun e he => List.mem_cons_of_mem _ (Option.mem_toList.mpr he))
        (by simp)).bind fun _ => onLinks_status.bind fun sts =>
      onLinks_status.bind fun stt => onLinks_selectCount.bind fun rc => ?_
    have hdone : ∀ L, Parted [ev, ev'] x (x :: et.toList) True L → Intact L [x] [ev, ev'] := by
      rintro L ⟨R, hR, -, hx⟩
      refine hR.intact (hx trivial) ?_
      simp [Ne.symm hnd.1.2.1, Ne.symm hnd.2.1.1]
    split
    · exact .pure hdone
    · split
      · exact .pure hdone
      · split
        · exact .pure hdone
        · exact .pure hdone
  · rintro L ⟨hL, hself⟩
    refine ⟨fun e he => (hself e he).1, ?_, fun e he _ => hL.apart e he x (by simp)⟩
    have hrings : L.Rings [x :: rest] :=
      Links.rings_cons.mpr ⟨⟨hL.cycle, hring, by simp⟩, Links.Rings.nil L, by simp⟩
    cases r with
    | error err => exact hrings
    | ok e =>
      obtain ⟨rfl, hcycle⟩ := hself e rfl
      exact Links.rings_cons.mpr ⟨⟨hcycle, by simp, by simp⟩, hrings, by simpa using hev⟩

end

/-- The system call that is asked for with number `k`, and repeated while it is interrupted,
    gives `r`. -/
def Polled (w : World ε τ) (k : ℕ) (r : Except Errno ℕ) : Prop :=
  r ≠ .error .EINTR ∧ ∃ j, (∀ i < j, w.sc (k + i) = .error .EINTR) ∧ w.sc (k + j) = r

omit [DecidableEq ε] in
theorem Polled.unique {w : World ε τ} {k : ℕ} {r r' : Except Errno ℕ} (h : Polled w k r)
    (h' : Polled w k r') : r = r' := by
  obtain ⟨hr, j, hj, hrj⟩ := h
  obtain ⟨hr', j', hj', hrj'⟩ := h'
  rcases Nat.lt_trichotomy j j' with hlt | rfl | hlt
  · exact absurd (hrj.symm.trans (hj' j hlt)) hr
  · exact hrj.symm.trans hrj'
  · exact absurd (hrj'.symm.trans (hj j' hlt)) hr'

omit [DecidableEq ε] in
theorem scRetry_polled {w : World ε τ} {P : Links ε → Prop} {n k : ℕ} :
    Triple (fun c : Calls ε τ => c.asked = k ∧ P c.evs.link) (scRetry w n)
      fun r c => Polled w k r ∧ P c.evs.link := by
  induction n generalizing k with
  | zero => exact Triple.failure
  | succ n ih =>
    refine .bind (R := fun r c => w.sc k = r ∧ c.asked = k + 1 ∧ P c.evs.link) ?_ fun r => ?_
    · rintro c r c' ⟨rfl, hP⟩ hrun
      obtain ⟨rfl, rfl⟩ := Prod.mk.inj (Option.some.inj hrun)
      exact ⟨rfl, rfl, hP⟩
    · split
      · rintro c r' c' ⟨hsc, hk, hP⟩ hrun
        obtain ⟨⟨hr', j, hj, hrj⟩, hP'⟩ := ih c r' c' ⟨hk, hP⟩ hrun
        refine ⟨⟨hr', j + 1, fun i hi => ?_, ?_⟩, hP'⟩
        · cases i with
          | zero => exact hsc.trans ‹_›
          | succ i => simpa [Nat.add_assoc, Nat.add_comm 1] using hj i (by omega)
        · simpa [Nat.add_assoc, Nat.add_comm 1] using hrj
      · exact .pure fun c hc => ⟨⟨‹_›, 0, by simp, hc.1⟩, hc.2.2⟩

/-- With these arguments, and these answers from number `k` on, `pth_select_ev` goes through the
    scheduler with an event for the descriptors: the arguments are valid and no plain delay, and
    the direct poll, which finds nothing, is not all that was asked for. -/
def SelectArgs.Waits (a : SelectArgs) (w : World ε τ) (k : ℕ) : Prop :=
  a.valid ∧ a.plainDelay = none ∧ Polled w k (.ok 0) ∧
    ¬ ∃ t ∈ a.timeout, (cutTimeout t).cmp .zero = 0

section

variable {w : World ε τ} {rest : List ε} {ev ev' x : ε} {n k : ℕ} {a : SelectArgs}

theorem selectEv_waits (hnd : (ev :: ev' :: x :: rest).Nodup) (ha : a.Waits w k) :
    Triple (fun c : Calls ε τ => c.asked = k ∧ Intact c.evs.link (x :: rest) [ev, ev'])
      (selectEv w n a ev ev' (some x)) fun _ c => Intact c.evs.link [x] [ev, ev'] := by
  obtain ⟨hvalid, hplain, hpoll, htimeout⟩ := ha
  unfold selectEv
  rw [if_neg (not_not.mpr hvalid), hplain]
  refine .bind (scRetry_polled (P := fun L => Intact L (x :: rest) [ev, ev'])) fun r => ?_
  rintro c res c' ⟨hr, hP⟩
  obtain rfl := hr.unique hpoll
  dsimp only
  rw [if_neg (by simpa using htimeout)]
  exact onLinks_selectWait hnd c res c' hP

theorem selectEv_keeps (hnd : (ev :: ev' :: x :: rest).Nodup) (ha : ¬ a.Waits w k) :
    Triple (fun c : Calls ε τ => c.asked = k ∧ Intact c.evs.link (x :: rest) [ev, ev'])
      (selectEv w n a ev ev' (some x)) fun _ c => Intact c.evs.link (x :: rest) [ev, ev'] := by
  unfold selectEv
  split
  · exact .pure fun c hc => hc.2
  · rename_i hvalid
    cases hplain : a.plainDelay with
    | some t =>
      exact Triple.mono (keeps_selectDelay (List.nodup_cons.mp hnd).2) (fun c hc => hc.2)
        fun _ _ h => h
    | none =>
      refine .bind (scRetry_polled (P := fun L => Intact L (x :: rest) [ev, ev'])) fun r => ?_
      cases r with
      | error e => exact .pure fun c hc => hc.2
      | ok rc =>
        rintro c res c' ⟨hr, hP⟩
        dsimp only
        split
        · exact Keeps.pure c res c' hP
        · rename_i hnot
          rw [not_or, Nat.not_lt, Nat.le_zero] at hnot
          obtain ⟨rfl, htimeout⟩ := hnot
          exact absurd ⟨not_not.mp hvalid, hplain, hr, htimeout⟩ ha

end

/-! ## All calls -/

/-- The call is a `pth_select_ev` that goes through the scheduler. -/
def ExtraCall.SelectWaits (w : World ε τ) (k : ℕ) : ExtraCall τ → Prop
  | .select a => a.Waits w k
  | _ => False

omit [DecidableEq ε] in
/-- A ring of several events is not intact where its first event is alone. -/
theorem Intact.rest_eq_nil {L : Links ε} {x : ε} {rest own : List ε}
    (h : Intact L (x :: rest) own) (hx : L.Cycle [x]) (hnd : (x :: rest).Nodup) : rest = [] := by
  cases rest with
  | nil => rfl
  | cons y rest =>
    have hedge : L.Edge x y := Links.Cycle.edge (A := []) h.cycle
    obtain rfl : x = y := by simpa [(Links.cycle_singleton.mp hx).1] using hedge.1
    simp at hnd

/-- When a call with extra events returns, the caller's ring is as it was and no event of the
    function is linked to it, for all calls but a `pth_select_ev` that has gone through the
    scheduler: that one leaves the ring intact exactly if it has one event only. -/
theorem extra_intact_iff [DecidableEq τ] (w : World ε τ) (n : ℕ) (call : ExtraCall τ)
    (ev ev' x : ε) (rest : List ε) (c c' : Calls ε τ) (r : CallRet)
    (hnd : (ev :: ev' :: x :: rest).Nodup) (hc : Intact c.evs.link (x :: rest) [ev, ev'])
    (hrun : (call.run w n ev ev' (some x)).run c = some (r, c')) :
    Intact c'.evs.link (x :: rest) [ev, ev'] ↔ (call.SelectWaits w c.asked → rest = []) := by
  have hev : (ev :: x :: rest).Nodup := hnd.sublist (by simp)
  have hev' : ev' ∉ x :: rest := (List.nodup_cons.mp (List.nodup_cons.mp hnd).2).1
  have hkeeps : ∀ {α : Type} {m : CallM ε τ α} {f : α → CallRet},
      Keeps (x :: rest) [ev, ev'] m → (f <$> m).run c = some (r, c') →
      Intact c'.evs.link (x :: rest) [ev, ev'] :=
    fun hm hrun => Triple.map hm c r c' hc hrun
  cases call with
  | select a =>
    by_cases ha : a.Waits w c.asked
    · have hx := Triple.map (selectEv_waits hnd ha) c r c' ⟨rfl, hc⟩ hrun
      refine ⟨fun h _ => h.rest_eq_nil hx.cycle (hev.sublist (by simp)), fun h => ?_⟩
      obtain rfl := h ha
      exact hx
    · have hkeep := Triple.map (selectEv_keeps hnd ha) c r c' ⟨rfl, hc⟩ hrun
      exact iff_of_true hkeep fun h => absurd h ha
  | mutexAcquire s current mutex tryonly =>
    exact iff_of_true (hkeeps (keeps_mutexAcquire hev) hrun) False.elim
  | condAwait s current cond mutex =>
    exact iff_of_true (hkeeps (keeps_condAwait hev hev') hrun) False.elim
  | sigwait set sigp => exact iff_of_true (hkeeps (keeps_sigwaitEv hev) hrun) False.elim
  | connect s => exact iff_of_true (hkeeps (keeps_connectEv hev) hrun) False.elim
  | accept s => exact iff_of_true (hkeeps (keeps_acceptEv hev) hrun) False.elim
  | read fd nbytes => exact iff_of_true (hkeeps (keeps_readEv hev) hrun) False.elim
  | write fd nbytes => exact iff_of_true (hkeeps (keeps_writeEv hev) hrun) False.elim
  | readv fd iov => exact iff_of_true (hkeeps (keeps_readvEv hev) hrun) False.elim
  | writev fd iov => exact iff_of_true (hkeeps (keeps_writevEv hev) hrun) False.elim
  | recvfrom fd nbytes => exact iff_of_true (hkeeps (keeps_recvfromEv hev) hrun) False.elim
  | sendto fd nbytes => exact iff_of_true (hkeeps (keeps_sendtoEv hev) hrun) False.elim

section

/-- Two events that are linked to a ring of their own, beside two events of a function. -/
def ringOfTwo : Links ℕ :=
  { next := fun e => if e = 2 then some 3 else if e = 3 then some 2 else none
    prev := fun e => if e = 2 then some 3 else if e = 3 then some 2 else none }

/-- A system where nothing fails: descriptor 0 is open and blocks, the direct poll finds nothing,
    and the event of the function occurs. -/
def calm : World ℕ Unit :=
  { sc := fun k => if k < 2 then .ok 0 else .ok 1
    isOpen := fun _ fd => fd = 0
    malloc := fun _ => true
    fdmode := fun _ => .block
    sigpending := fun _ _ => false
    now := fun _ => .zero
    wait := fun _ _ => ⟨.occurred, .msg 0⟩
    sync := fun _ => ⟨⟨fun _ => Mutex.init, ⟨fun _ => none, fun _ => none⟩, fun _ => Ring.init⟩,
      fun _ => Cond.init⟩ }

/-- The two events at the call of a function, which makes its own events 0 and 1. -/
def atCall : Calls ℕ Unit :=
  { asked := 0
    evs := { link := ringOfTwo, body := fun _ => ⟨.pending, .msg 0⟩, live := fun e => 2 ≤ e } }

theorem atCall_intact : Intact atCall.evs.link [2, 3] [0, 1] where
  cycle := by simp [Links.Cycle, Links.Edge, atCall, ringOfTwo]
  apart := by decide

/-- `pth_read_ev` waits with two extra events and gives them back. -/
theorem extra_intact_iff_read :
    ∃ c', ((ExtraCall.read 0 10).run calm 1 0 1 (some 2)).run atCall = some (.bytes (.ok 1), c') ∧
      Intact c'.evs.link [2, 3] [0, 1] := by
  refine ⟨_, rfl, ?_⟩
  exact (extra_intact_iff calm 1 (.read 0 10) 0 1 2 [3] atCall _ _ (by decide) atCall_intact
    rfl).mpr False.elim

/-- `pth_select_ev` waits with the same two events: the first of them comes back alone, and the
    other one is left linked to the event of the function. -/
theorem extra_intact_iff_select :
    ∃ c', ((ExtraCall.select ⟨1, some fun _ => true, none, none, none⟩).run calm 1 0 1
        (some 2)).run atCall = some (.value (.ok (-1)), c') ∧
      c'.evs.link.next 2 = some 2 ∧ c'.evs.link.next 3 = some 0 ∧
      ¬ Intact c'.evs.link [2, 3] [0, 1] := by
  refine ⟨_, rfl, rfl, rfl, fun h => ?_⟩
  have hedge := Links.Cycle.edge (A := []) h.cycle
  exact absurd hedge.1 (by decide)

end

end CallM

end Pth
