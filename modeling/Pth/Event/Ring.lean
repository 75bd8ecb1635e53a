-- SUMMARY: The event structures of pth_event.c, their rings, and what the ring functions do to them.
import Pth.Lib.Rings
import Pth.Sched.State

/-!
# Event rings

Events are linked into rings without a hook: a ring is entered at any of its
events. All event structures share one map of links. Following a null pointer
gives `none`; an argument that is the null pointer is an error of the source, and
is returned as such. -/

namespace Pth

/-- The event structures: the links of all of them, their contents, and which ones are
    allocated. -/
structure Events (ε τ : Type*) where
  link : Links ε
  body : ε → Event τ
  live : ε → Bool

/-- The kind of event `pth_event` is asked for, with its arguments. A descriptor is checked
    before it is stored. -/
inductive EventSpec (τ : Type*) where
  | fd (goal : FdGoal) (fd : ℤ)
  | kind (args : EventArgs τ)
  | unknown

/-- `FD_SETSIZE` -/
def fdSetsize : ℕ := 1024

/-- `pth_util_fd_valid`, where `isOpen` are the open descriptors. -/
def fdValid (isOpen : ℕ → Bool) (fd : ℤ) : Bool :=
  decide (0 ≤ fd ∧ fd < fdSetsize) && isOpen fd.toNat

/-- The event specific part of `pth_event`. -/
def EventSpec.args {τ : Type*} (isOpen : ℕ → Bool) : EventSpec τ → Except Errno (EventArgs τ)
  | .fd goal n => if fdValid isOpen n then .ok (.fd goal n.toNat) else .error .EBADF
  | .kind args => .ok args
  | .unknown => .error .EINVAL

namespace Events

variable {ε τ : Type*} [DecidableEq ε]

/-- The links that `pth_event` writes: it makes a new ring out of the event, or inserts it into
    the ring of `ch`. -/
def eventLink (L : Links ε) (ev : ε) : Option ε → Option (Links ε)
  | some ch => (L.prev ch).map fun p => L.link p ev ch
  | none => some ((L.setNext ev (some ev)).setPrev ev (some ev))

/-- `pth_event` for the structure `ev`, where `none` is a failed allocation, with
    `PTH_MODE_CHAIN` onto `ch`. An event whose arguments are refused has been linked all the
    same. -/
def event (isOpen : ℕ → Bool) (s : Events ε τ) (ev ch : Option ε) (spec : EventSpec τ) :
    Option (Except Errno ε × Events ε τ) :=
  match ev with
  | none => some (.error .ENOMEM, s)
  | some ev =>
    (eventLink s.link ev ch).map fun link =>
      let args := spec.args isOpen
      let body := { evStatus := .pending, evArgs := args.toOption.getD (s.body ev).evArgs }
      (args.map fun _ => ev,
        { link := link
          body := Function.update s.body ev body
          live := Function.update s.live ev true })

/-- The loop of `pth_event_concat` that attaches the rings `evs` behind `evc`. -/
def concatLoop (L : Links ε) (evc : ε) : List ε → Option (ε × Links ε)
  | [] => some (evc, L)
  | evn :: evs => do
    let evt ← L.prev evn
    concatLoop ((L.setNext evc (some evn)).setPrev evn (some evc)) evt evs

/-- The links that `pth_event_concat` writes. -/
def concatLink (L : Links ε) (evf : ε) (evs : List ε) : Option (Links ε) := do
  -- open ring
  let evl ← L.next evf
  -- attach additional rings
  let (evc, L') ← concatLoop L evf evs
  -- close ring
  some ((L'.setNext evc (some evl)).setPrev evl (some evc))

/-- `pth_event_concat` -/
def concat (s : Events ε τ) (evf : Option ε) (evs : List ε) :
    Option (Except Errno ε × Events ε τ) :=
  match evf with
  | none => some (.error .EINVAL, s)
  | some evf => (concatLink s.link evf evs).map fun link => (.ok evf, { s with link := link })

/-- The links that `pth_event_isolate` writes. -/
def isolateLink (L : Links ε) (ev : ε) : Option (Option ε × Links ε) :=
  if L.next ev = some ev ∧ L.prev ev = some ev then some (none, L)
  else do
    let p ← L.prev ev
    let n ← L.next ev
    some (some n, ((L.bypass p n).setPrev ev (some ev)).setNext ev (some ev))

/-- `pth_event_isolate` -/
def isolate (s : Events ε τ) (ev : Option ε) : Option (Except Errno (Option ε) × Events ε τ) :=
  match ev with
  | none => some (.error .EINVAL, s)
  | some ev => (isolateLink s.link ev).map fun r => (.ok r.1, { s with link := r.2 })

/-- `pth_event_free` with `PTH_FREE_THIS` -/
def freeThis (s : Events ε τ) (ev : Option ε) : Option (Ret × Events ε τ) :=
  match ev with
  | none => some (.error .EINVAL, s)
  | some ev =>
    (s.link.prev ev).bind fun p => (s.link.next ev).map fun n =>
      (.ok, { s with link := s.link.bypass p n, live := Function.update s.live ev false })

/-! ## Concatenating rings -/

/-- The rings that have been attached form a chain with what was there before. -/
theorem concatLoop_chain {L : Links ε} {P : List ε} {evc : ε} {rs : List ε} {R : List (List ε)}
    (hchain : (P ++ [evc]).IsChain L.Edge) (hR : L.Rings R)
    (hheads : R.map List.head? = rs.map some) (hnd : (P ++ evc :: R.flatten).Nodup) :
    ∃ P' evc' L', concatLoop L evc rs = some (evc', L') ∧
      P' ++ [evc'] = P ++ evc :: R.flatten ∧ (P' ++ [evc']).IsChain L'.Edge ∧
      (∀ z, z ∉ evc :: R.flatten → L'.next z = L.next z) ∧
      (∀ z, z ∉ R.flatten → L'.prev z = L.prev z) := by
  induction rs generalizing L P evc R with
  | nil =>
    obtain rfl : R = [] := by simpa using hheads
    exact ⟨P, evc, L, rfl, by simp, hchain, fun _ _ => rfl, fun _ _ => rfl⟩
  | cons r rs ih =>
    obtain ⟨l, R, rfl⟩ : ∃ l R', R = l :: R' := by
      cases R with
      | nil => simp at hheads
      | cons l R => exact ⟨l, R, rfl⟩
    simp only [List.map_cons, List.cons.injEq] at hheads
    obtain ⟨B, rfl⟩ : ∃ B, l = r :: B := List.head?_eq_some_iff.mp hheads.1
    obtain ⟨⟨hcycle, hndl, -⟩, hrings, hdisj⟩ := Links.rings_cons.mp hR
    rw [List.flatten_cons] at hnd
    obtain ⟨-, hndQ, hPQ⟩ := List.nodup_append.mp hnd
    have hevc : evc ∉ r :: B ++ R.flatten := (List.nodup_cons.mp hndQ).1
    obtain ⟨z, hz⟩ : ∃ z, (r :: B).getLast? = some z :=
      ⟨_, List.getLast?_eq_some_getLast (by simp)⟩
    obtain ⟨B', hB'⟩ := List.getLast?_eq_some_iff.mp hz
    have hprev : L.prev r = some z := (hcycle.edge_last hz rfl).2
    -- the ring is opened and joined to the chain
    have hjoin : (P ++ evc :: r :: B).IsChain (L.bypass evc r).Edge := by
      refine Links.chain_join hchain ?_ ?_ ?_ ?_ (List.nodup_cons.mp hndl).1
      · rw [Links.Cycle, Links.closed_cons, ← List.cons_append] at hcycle
        exact hcycle.left_of_append
      · exact fun h => hPQ evc h evc (by simp) rfl
      · exact fun h => hevc (List.mem_append_left _ (List.dropLast_subset _ h))
      · intro h
        rcases List.mem_append.mp (List.mem_of_mem_tail h) with h | h
        · exact hPQ r h r (by simp) rfl
        · obtain rfl : r = evc := by simpa using h
          simp at hevc
    have hrest : (L.bypass evc r).Rings R :=
      hrings.bypass (fun h => hevc (List.mem_append_right _ h)) (hdisj r (by simp))
    have hlist : P ++ evc :: B' ++ [z] = P ++ evc :: r :: B := by simp [hB']
    have hflat : P ++ evc :: B' ++ z :: R.flatten = P ++ evc :: (r :: B ++ R.flatten) := by
      simp [hB']
    rw [← hlist] at hjoin
    rw [← hflat] at hnd
    obtain ⟨P', evc', L', hloop, hlist', hchain', hnext, hprev'⟩ := ih hjoin hrest hheads.2 hnd
    refine ⟨P', evc', L', ?_, by rw [hlist', hflat]; simp, hchain', ?_, ?_⟩
    · simpa [concatLoop, hprev, Links.bypass] using hloop
    · intro y hy
      simp only [List.flatten_cons, List.mem_cons, not_or] at hy
      have hyz : y ∉ z :: R.flatten := by
        rintro (_ | ⟨_, hyR⟩)
        · exact hy.2 (List.mem_append_left _ (List.mem_of_getLast? hz))
        · exact hy.2 (List.mem_append_right _ hyR)
      rw [hnext y hyz]
      simp [Links.bypass, hy.1]
    · intro y hy
      simp only [List.flatten_cons, List.mem_append, not_or] at hy
      have hyr : y ≠ r := by
        rintro rfl
        simp at hy
      rw [hprev' y hy.2]
      simp [Links.bypass, hyr]

/-- `pth_event_concat` of an event with the rings `R`. -/
theorem concatLink_cycle {L : Links ε} {e : ε} {A rs : List ε} {R : List (List ε)}
    (h : L.Rings ((e :: A) :: R)) (hheads : R.map List.head? = rs.map some) :
    ∃ L', concatLink L e rs = some L' ∧ L'.Cycle (e :: (R.flatten ++ A)) ∧
      L.EqOff (e :: A ++ R.flatten) L' := by
  obtain ⟨⟨hcycle, hndA, -⟩, hR, hdisj⟩ := Links.rings_cons.mp h
  have hnd : ([] ++ e :: R.flatten).Nodup :=
    List.nodup_cons.mpr ⟨hdisj e (by simp), hR.nodup⟩
  obtain ⟨P, evc, L₁, hloop, hlist, hchain, hnext, hprev⟩ :=
    concatLoop_chain (P := []) (.singleton e) hR hheads hnd
  -- what is left of the ring of `e`, up to `e` again
  obtain ⟨evl, Q, hQ⟩ : ∃ evl Q, A ++ [e] = evl :: Q := by
    cases A with
    | nil => exact ⟨e, [], rfl⟩
    | cons a A => exact ⟨a, A ++ [e], rfl⟩
  have hedge : L.next e = some evl := by
    rw [Links.Cycle, Links.closed_cons, hQ, List.isChain_cons_cons] at hcycle
    exact hcycle.1.1
  have hdisjA : ∀ z ∈ A ++ [e], z ∉ R.flatten := by
    intro z hz
    exact hdisj z (by simpa [or_comm] using hz)
  have heA : e ∉ A := (List.nodup_cons.mp hndA).1
  have hrest : (A ++ [e]).IsChain L₁.Edge := by
    refine Links.chain_congr (fun z hz => hnext z ?_) (fun z hz => hprev z ?_) hcycle.of_cons
    · rw [List.dropLast_concat] at hz
      rintro (_ | ⟨_, hzR⟩)
      · exact heA hz
      · exact hdisjA z (by simp [hz]) hzR
    · exact hdisjA z (List.mem_of_mem_tail hz)
  have hevc : evc ∈ e :: R.flatten := by
    rw [List.nil_append] at hlist
    rw [← hlist]
    simp
  have hevl : evl ∈ A ++ [e] := by simp [hQ]
  refine ⟨L₁.bypass evc evl, ?_, ?_, ?_⟩
  · simp [concatLink, hedge, hloop, Links.bypass]
  · have hclosed : Links.closed (e :: (R.flatten ++ A)) = P ++ evc :: evl :: Q := by
      have happ : P ++ [evc] ++ (evl :: Q) = [] ++ e :: R.flatten ++ (A ++ [e]) := by
        rw [hlist, hQ]
      simpa using happ.symm
    rw [Links.Cycle, hclosed]
    rw [hQ] at hrest
    refine Links.chain_join hchain hrest ?_ ?_ ?_ ?_
    · intro hmem
      rw [← hlist] at hnd
      exact (List.nodup_append.mp hnd).2.2 evc hmem evc (by simp) rfl
    · rw [← hQ, List.dropLast_concat]
      intro hmem
      rcases List.mem_cons.mp hevc with rfl | hevc
      · exact heA hmem
      · exact hdisjA evc (by simp [hmem]) hevc
    · rw [hlist]
      exact hdisjA evl hevl
    · have hndQ : (A ++ [e]).Nodup := by
        rw [← List.concat_eq_append]
        exact (List.nodup_cons.mp hndA).2.concat heA
      rw [hQ] at hndQ
      exact (List.nodup_cons.mp hndQ).1
  · intro z hz
    simp only [List.cons_append, List.mem_cons, List.mem_append, not_or] at hz
    have hz' : z ∉ e :: R.flatten := by simp [hz.1, hz.2.2]
    have hzc : z ≠ evc := (ne_of_mem_of_not_mem hevc hz').symm
    have hzl : z ≠ evl := by
      rintro rfl
      simp [hz.1, hz.2.1] at hevl
    obtain ⟨hnext', hprev'⟩ := Links.bypass_of_ne (L := L₁) hzc hzl
    exact ⟨hnext'.trans (hnext z hz'), hprev'.trans (hprev z hz.2.2)⟩

/-- The other rings stay as they are. -/
theorem concatLink_rings {L : Links ε} {e : ε} {A rs : List ε} {Rs R : List (List ε)}
    (h : L.Rings ((e :: A) :: Rs ++ R)) (hheads : Rs.map List.head? = rs.map some) :
    ∃ L', concatLink L e rs = some L' ∧ L'.Rings ((e :: (Rs.flatten ++ A)) :: R) ∧
      L.EqOff (e :: A ++ Rs.flatten) L' := by
  obtain ⟨hin, hrest, hdisj⟩ := Links.rings_append.mp h
  obtain ⟨L', hlink, hcycle, hoff⟩ := concatLink_cycle hin hheads
  have hperm : (e :: (Rs.flatten ++ A)).Perm ((e :: A) :: Rs).flatten := by
    simpa using List.perm_append_comm
  refine ⟨L', hlink, hrest.write hoff hdisj hcycle ?_ (by simp) ?_, hoff⟩
  · exact hperm.nodup_iff.mpr hin.nodup
  · exact fun x hx => hperm.mem_iff.mp hx

/-! ## Isolating an event -/

theorem isolateLink_cycle {L : Links ε} {e : ε} {A : List ε} (h : L.Cycle (e :: A))
    (hnd : (e :: A).Nodup) :
    ∃ L', isolateLink L e = some (A.head?, L') ∧ L'.Cycle [e] ∧ L'.Cycle A ∧
      L.EqOff (e :: A) L' := by
  cases A with
  | nil =>
    have hself := Links.cycle_singleton.mp h
    exact ⟨L, by simp [isolateLink, hself], h, Links.cycle_nil L, fun _ _ => ⟨rfl, rfl⟩⟩
  | cons a A =>
    have hea : a ≠ e := by
      rintro rfl
      simp at hnd
    obtain ⟨p, n, hprev, hnext, hcycle, hoff⟩ := h.unlink hnd
    obtain rfl : n = a := by
      have hedge : L.Edge e a := Links.Cycle.edge (A := []) h
      simpa [hnext] using hedge.1
    refine ⟨((L.bypass p n).setPrev e (some e)).setNext e (some e), ?_, ?_, ?_, ?_⟩
    · simp [isolateLink, hnext, hprev, hea]
    · exact Links.cycle_singleton.mpr (by simp)
    · refine hcycle.congr fun x hx => ?_
      have hxe : x ≠ e := ne_of_mem_of_not_mem hx (List.nodup_cons.mp hnd).1
      simp [hxe]
    · intro z hz
      have hze : z ≠ e := fun h => hz (by simp [h])
      simpa [hze] using hoff z hz

theorem isolateLink_rings {L : Links ε} {e : ε} {A : List ε} {R : List (List ε)}
    (h : L.Rings ((e :: A) :: R)) :
    ∃ L', isolateLink L e = some (A.head?, L') ∧ L'.Rings ([e] :: Links.addRing A R) ∧
      L.EqOff (e :: A) L' := by
  obtain ⟨⟨hcycle, hnd, -⟩, -, hdisj⟩ := Links.rings_cons.mp h
  obtain ⟨L', hiso, hself, hcycle', hoff⟩ := isolateLink_cycle hcycle hnd
  have heA : e ∉ A ++ R.flatten := by
    rw [List.mem_append, not_or]
    exact ⟨(List.nodup_cons.mp hnd).1, hdisj e (by simp)⟩
  refine ⟨L', hiso, ?_, hoff⟩
  rw [Links.rings_cons]
  exact ⟨⟨hself, by simp, by simp⟩, h.remove hoff hcycle', by simpa using heA⟩

/-- A single event that is put in front of a ring and isolated again leaves every link as it
    was. -/
theorem isolateLink_concatLink {L : Links ε} {e r : ε} {A : List ε} (he : L.Cycle [e])
    (hr : L.Cycle (r :: A)) (hnd : (e :: r :: A).Nodup) :
    ∃ L', concatLink L e [r] = some L' ∧ isolateLink L' e = some (some r, L) := by
  obtain ⟨hnext, hprev⟩ := Links.cycle_singleton.mp he
  obtain ⟨z, hz⟩ : ∃ z, (r :: A).getLast? = some z :=
    ⟨_, List.getLast?_eq_some_getLast (by simp)⟩
  have hedge := hr.edge_last hz rfl
  have hre : r ≠ e := by
    rintro rfl
    simp at hnd
  have hze : z ≠ e := ne_of_mem_of_not_mem (List.mem_of_getLast? hz) (List.nodup_cons.mp hnd).1
  let L₁ := (((L.setNext e (some r)).setPrev r (some e)).setNext z (some e)).setPrev e (some z)
  have hback : ((L₁.bypass z r).setPrev e (some e)).setNext e (some e) = L := by
    refine Links.ext (funext fun x => ?_) (funext fun x => ?_)
    · simp only [Links.setNext, Links.setPrev, Links.bypass, Function.update_apply, L₁]
      split_ifs with hxe hxz
      · rw [hxe, hnext]
      · rw [hxz, hedge.1]
      · rfl
    · simp only [Links.setNext, Links.setPrev, Links.bypass, Function.update_apply, L₁]
      split_ifs with hxe hxr
      · rw [hxe, hprev]
      · rw [hxr, hedge.2]
      · rfl
  refine ⟨L₁, by simp [concatLink, concatLoop, hnext, hedge.2, L₁], ?_⟩
  have hnext₁ : L₁.next e = some r := by simp [L₁, hze.symm]
  have hprev₁ : L₁.prev e = some z := by simp [L₁]
  simp [isolateLink, hnext₁, hprev₁, hre, hback]

end Events

end Pth
