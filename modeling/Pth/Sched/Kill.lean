-- SUMMARY: Every control block is freed exactly once: by a run, or by the pth_kill that ends it.
import Pth.Sched.Blocks
import Pth.Sched.Fork
import Pth.Sched.Join
import Pth.Sched.RoundRuns

/-!
# Freeing the threads

Control blocks are allocated by `pth_init` and `pth_spawn`. They are freed in four places: by
`pth_join`, by `pth_cancel`, by the scheduler for a thread that cannot be joined, and by
`pth_kill` for whatever is left. A count next to the run says how often each block has been
allocated and not freed, and `pth_kill` is compared with it. -/

namespace Pth

open PrioList (keys)

variable {τ : Type*} [DecidableEq τ]

namespace Sched

variable {s s' : Sched τ} {a : QId → List (τ × ℤ)} {k : QId}

/-! ## Ending the library -/

/-- The loop of `pth_scheduler_drop` for one queue, with the blocks that it frees. -/
def dropQueueFrees (k : QId) : ℕ → Sched τ → Option (List τ × Sched τ)
  | 0, _ => none
  | n + 1, s =>
    (s.queues.delmax k).bind fun (t, qs) =>
      match t with
      | none => some ([], { s with queues := qs.init k })
      | some t =>
        (dropQueueFrees k n ({ s with queues := qs }.tcbFree t)).map fun r => (t :: r.1, r.2)

/-- The loops for some queues, one after the other. -/
def dropQueuesFrees (l : List QId) (r : List τ × Sched τ) : Option (List τ × Sched τ) :=
  l.foldlM (fun r k => (dropQueueFrees k ((r.2.queues.elements k).toNat + 1) r.2).map
    fun r' => (r.1 ++ r'.1, r'.2)) r

/-- `pth_scheduler_drop`, with the blocks that it frees. -/
def schedulerDropFrees (s : Sched τ) : Option (List τ × Sched τ) :=
  dropQueuesFrees [.NQ, .RQ, .WQ, .SQ, .DQ] ([], s)

/-- `pth_kill`, with the blocks that it frees. The cleanup of the main thread works on other
    data. -/
def pthKill (initialized : Bool) (s : Sched τ) : Option (Ret × List τ × Sched τ) :=
  if !initialized then some (.error .EINVAL, [], s)
  else if s.pthCurrent ≠ some s.pthMain then some (.error .EPERM, [], s)
  else s.schedulerDropFrees.map fun (freed, s') =>
    (.ok, freed ++ [s'.pthSched, s'.pthMain], (s'.tcbFree s'.pthSched).tcbFree s'.pthMain)

theorem dropQueueFrees_snd (k : QId) (n : ℕ) (s : Sched τ) :
    (dropQueueFrees k n s).map Prod.snd = dropQueue k n s := by
  induction n generalizing s with
  | zero => rfl
  | succ n ih =>
    simp only [dropQueueFrees, dropQueue, Option.map_bind]
    congr 1
    funext x
    obtain ⟨t, qs⟩ := x
    cases t with
    | none => rfl
    | some t => simpa [Function.comp_def] using ih _

/-- Nothing but the list of the freed blocks has been added. -/
theorem schedulerDropFrees_snd (s : Sched τ) :
    s.schedulerDropFrees.map Prod.snd = s.schedulerDrop := by
  have hloop : ∀ (l : List QId) (r : List τ × Sched τ),
      (dropQueuesFrees l r).map Prod.snd =
        l.foldlM (fun s k => dropQueue k ((s.queues.elements k).toNat + 1) s) r.2 := by
    intro l
    induction l with
    | nil => exact fun _ => rfl
    | cons k l ih =>
      intro r
      simp only [dropQueuesFrees, List.foldlM_cons, Option.bind_eq_bind, Option.map_bind,
        Option.bind_map, ← dropQueueFrees_snd] at ih ⊢
      congr 1
      funext r'
      exact ih _
  exact hloop _ _

/-- What freeing the blocks of a list leaves of the library's variables. -/
structure Freed (s : Sched τ) (l : List τ) (s' : Sched τ) : Prop where
  live : ∀ t, s'.live t = (s.live t && decide (t ∉ l))
  tcb : s'.tcb = s.tcb
  pthSched : s'.pthSched = s.pthSched
  pthMain : s'.pthMain = s.pthMain
  pthCurrent : s'.pthCurrent = s.pthCurrent
  deletes : s'.deletes = s.deletes

theorem freed_nil (s : Sched τ) (qs : Queues QId τ) : s.Freed [] { s with queues := qs } :=
  ⟨by simp, rfl, rfl, rfl, rfl, rfl⟩

theorem Freed.trans {l l' : List τ} {s'' : Sched τ} (h : s.Freed l s') (h' : s'.Freed l' s'') :
    s.Freed (l ++ l') s'' where
  live t := by simp [h'.live, h.live, Bool.and_assoc]
  tcb := h'.tcb.trans h.tcb
  pthSched := h'.pthSched.trans h.pthSched
  pthMain := h'.pthMain.trans h.pthMain
  pthCurrent := h'.pthCurrent.trans h.pthCurrent
  deletes := h'.deletes.trans h.deletes

theorem freed_tcbFree (s : Sched τ) (t : τ) : s.Freed [t] (s.tcbFree t) :=
  ⟨fun u => by by_cases hu : u = t <;> simp [hu], rfl, rfl, rfl, rfl, rfl⟩

/-- The loop for one queue frees its threads in their order. -/
theorem dropQueueFrees_eq {n : ℕ} (h : s.queues.Repr a) (hn : (a k).length < n) :
    (dropQueueFrees k n s).Ensures fun r => r.1 = keys (a k) ∧
      r.2.queues.Repr (Function.update a k []) ∧ s.Freed r.1 r.2 := by
  induction n generalizing s a with
  | zero => exact absurd hn (Nat.not_lt_zero _)
  | succ n ih =>
    obtain ⟨qs, hdel, hr⟩ := h.delmax (k := k)
    cases hl : a k with
    | nil =>
      simp only [dropQueueFrees, hdel, hl, PrioList.keys_nil, List.head?_nil, Option.bind_some,
        Option.ensures_some]
      exact ⟨trivial, by simpa using hr.init (k := k), freed_nil s _⟩
    | cons e l =>
      simp only [dropQueueFrees, hdel, hl, PrioList.keys_cons, List.head?_cons, Option.bind_some]
      have hrest := ih (s := { s with queues := qs }.tcbFree e.1) hr (by simpa [hl] using hn)
      refine hrest.map ?_
      rintro ⟨freed, s'⟩ ⟨hfreed, hr', hfree⟩
      refine ⟨by simpa [hl] using hfreed, by simpa using hr', ?_⟩
      exact ((freed_nil s qs).trans (freed_tcbFree _ e.1)).trans hfree

/-- The loops for some queues free the threads of these queues. -/
theorem dropQueuesFrees_eq {l : List QId} (hl : l.Nodup) (freed : List τ)
    (h : s.queues.Repr a) :
    (dropQueuesFrees l (freed, s)).Ensures fun r =>
      (r.2.queues.Repr fun k => if k ∈ l then [] else a k) ∧
      ∃ freed', freed' = l.flatMap (fun k => keys (a k)) ∧ r.1 = freed ++ freed' ∧
        s.Freed freed' r.2 := by
  induction l generalizing freed s a with
  | nil =>
    exact Option.ensures_some.mpr ⟨by simpa using h, [], rfl, by simp, freed_nil s _⟩
  | cons k l ih =>
    obtain ⟨hk, hl⟩ := List.nodup_cons.mp hl
    have hone := dropQueueFrees_eq (k := k) (n := (s.queues.elements k).toNat + 1) h
      (by rw [h.elements, Int.toNat_natCast]; exact Nat.lt_succ_self _)
    simp only [dropQueuesFrees, List.foldlM_cons, Option.bind_eq_bind, Option.bind_map]
    refine hone.bind ?_
    rintro ⟨freed₁, s₁⟩ ⟨rfl, hr₁, hfree₁⟩
    refine (ih hl (freed ++ keys (a k)) hr₁).mono ?_
    rintro ⟨freed', s'⟩ ⟨hr', freed₂, hfreed₂, hfreed', hfree'⟩
    -- the later loops find their queues as they were
    have hsame : freed₂ = l.flatMap fun k' => keys (a k') := by
      rw [hfreed₂]
      refine List.flatMap_congr fun k' hk' => ?_
      have hne : k' ≠ k := by
        rintro rfl
        exact hk hk'
      rw [Function.update_of_ne hne]
    refine ⟨?_, keys (a k) ++ freed₂, by simp [hsame], by simpa using hfreed',
      hfree₁.trans hfree'⟩
    convert hr' using 1
    funext k'
    by_cases hk' : k' = k <;> simp [hk']

/-- `pth_scheduler_drop` frees the threads of all queues, and nothing else. -/
theorem schedulerDropFrees_eq (h : s.queues.Repr a) :
    s.schedulerDropFrees.Ensures fun r =>
      r.1 = [QId.NQ, .RQ, .WQ, .SQ, .DQ].flatMap (fun k => keys (a k)) ∧
      (r.2.queues.Repr fun _ => []) ∧ s.Freed r.1 r.2 := by
  refine (dropQueuesFrees_eq (by decide) [] h).mono ?_
  rintro r ⟨hr, freed, rfl, hfreed, hfree⟩
  rw [List.nil_append] at hfreed
  refine ⟨hfreed, ?_, hfreed ▸ hfree⟩
  convert hr using 1
  funext k
  cases k <;> rfl

omit [DecidableEq τ] in
theorem mem_queues {t : τ} :
    t ∈ [QId.NQ, .RQ, .WQ, .SQ, .DQ].flatMap (fun k => keys (a k)) ↔ ∃ k, t ∈ keys (a k) := by
  rw [List.mem_flatMap]
  exact ⟨fun ⟨k, _, hk⟩ => ⟨k, hk⟩, fun ⟨k, hk⟩ => ⟨k, by cases k <;> simp, hk⟩⟩

/-- When the main thread runs, `pth_kill` frees every block, each of them once. -/
theorem Consistent.pthKill (h : s.Consistent a {s.pthMain})
    (hcur : s.pthCurrent = some s.pthMain) :
    (s.pthKill true).Ensures fun x => x.1 = .ok ∧ x.2.1.Nodup ∧
      (∀ t, t ∈ x.2.1 ↔ s.live t = true) ∧ (∀ t, x.2.2.live t = false) ∧
      x.2.2.queues.Repr fun _ => [] := by
  simp only [Sched.pthKill, hcur, Bool.not_true, Bool.false_eq_true, if_false, ne_eq,
    not_true_eq_false]
  refine (schedulerDropFrees_eq h.repr).map ?_
  rintro ⟨queued, s₁⟩ ⟨hqueued, hr, hfree⟩
  have hsched₁ : s₁.pthSched = s.pthSched := hfree.pthSched
  have hmain₁ : s₁.pthMain = s.pthMain := hfree.pthMain
  replace hqueued : queued = _ := hqueued
  have hmem : ∀ t, t ∈ queued ↔ ∃ k, t ∈ keys (a k) := fun t => hqueued ▸ mem_queues
  have hnodup : queued.Nodup := by
    rw [hqueued, List.nodup_flatMap]
    refine ⟨fun k _ => (h.repr.queue k).nodup, ?_⟩
    refine List.Pairwise.imp ?_ (by decide : [QId.NQ, .RQ, .WQ, .SQ, .DQ].Nodup)
    intro k k' hne t hk hk'
    exact hne (h.repr.disjoint hk hk')
  obtain ⟨hmain, hne⟩ := h.awayLive rfl
  -- the blocks of the scheduler and of the main thread are in no queue
  have hall : ∀ t, t ∈ queued ++ [s.pthSched, s.pthMain] ↔ s.live t = true := by
    intro t
    simp only [List.mem_append, hmem, List.mem_cons, List.not_mem_nil, or_false]
    constructor
    · rintro (⟨k, hk⟩ | rfl | rfl)
      · exact h.live hk
      · exact h.schedLive
      · exact hmain
    · intro ht
      by_contra hcon
      push Not at hcon
      obtain ⟨k, hk⟩ := h.queued ht hcon.2.1 hcon.2.2
      exact hcon.1 k hk
  have hfreed := (hfree.trans (freed_tcbFree s₁ s₁.pthSched)).trans
    (freed_tcbFree (s₁.tcbFree s₁.pthSched) s₁.pthMain)
  simp only [hsched₁, hmain₁, List.append_assoc, List.singleton_append] at hfreed ⊢
  refine ⟨trivial, ?_, hall, fun t => ?_, hr⟩
  · refine hnodup.append (by simpa using hne.symm) ?_
    intro t ht ht'
    obtain ⟨k, hk⟩ := (hmem t).mp ht
    rcases (by simpa using ht' : t = s.pthSched ∨ t = s.pthMain) with rfl | rfl
    · exact h.sched hk rfl
    · exact h.away hk rfl
  · rw [hfreed.live]
    cases ht : s.live t with
    | false => rfl
    | true =>
      rw [Bool.true_and, decide_eq_false_iff_not, not_not]
      exact (hall t).mpr ht

/-- `pth_cancel` frees the block of the thread if it terminates it and nobody can join it. -/
theorem cancel_live {t : τ} {r : Ret} (h : s.queues.Repr a)
    (hcur : s.pthCurrent = some t → ∀ k, t ∉ keys (a k))
    (hs : s.cancel (some t) = some (r, s')) :
    s'.live = if s.cancelsNow t && !(s.tcb t).joinable then Function.update s.live t false
      else s.live := by
  have hcase : s.Cancels t r s' := (cancel_spec h t).of_eq_some hs
  cases hcase with
  | refused href => simp [cancelsNow_refused h hcur href]
  | missing _ _ _ hplace => simp [cancelsNow, hplace]
  | marks _ hasync => simp [cancelsNow, hasync]
  | buries hnow _ _ hj hdel hins => simpa [hnow, hj, (delete_tcb hdel).2] using (insert_tcb hins).2
  | frees hnow _ _ hj hdel => simp [hnow, hj, tcbFree, (delete_tcb hdel).2]

end Sched

namespace Run

variable {r r' : Run τ} {op : Op τ} {t : τ}

/-! ## Allocating and freeing in a run -/

/-- What a step may do to the set of the allocated blocks: only a block that is free is
    allocated, and only one that is allocated is freed. -/
structure Balance (r : Run τ) (op : Op τ) (r' : Run τ) : Prop where
  live : ∀ t, r'.lib.live t = if allocates op = some t then true
    else if r.frees op = some t then false else r.lib.live t
  allocated : ∀ t, allocates op = some t → r.lib.live t = false
  freed : ∀ t, r.frees op = some t → r.lib.live t = true

theorem Balance.same (halloc : allocates op = none) (hfree : r.frees op = none)
    (h : r'.lib.live = r.lib.live) : Balance r op r' where
  live t := by simp [halloc, hfree, h]
  allocated t ht := by simp [halloc] at ht
  freed t ht := by simp [hfree] at ht

theorem Balance.quiet (h : r.Quiet op) (hlive : r'.lib.live = r.lib.live) : Balance r op r' :=
  .same h.allocates h.frees hlive

/-- A step that frees the block `u`. -/
theorem Balance.one {u : τ} (halloc : allocates op = none) (hfree : r.frees op = some u)
    (hlive : r'.lib.live = Function.update r.lib.live u false) (hu : r.lib.live u = true) :
    Balance r op r' where
  live t := by simp [halloc, hfree, hlive, Function.update_apply, eq_comm]
  allocated t ht := by simp [halloc] at ht
  freed t ht := by
    obtain rfl : u = t := by simpa [hfree] using ht
    exact hu

theorem balance_cancel {c t : τ} {x : Ret} {s : Sched τ} {a : QId → List (τ × ℤ)}
    (ha : r.lib.Consistent a {c}) (hc : r.lib.pthCurrent = some c) (ht : r.lib.live t = true)
    (hs : r.lib.cancel (some t) = some (x, s)) (hr' : r'.lib = s) :
    Balance r (.cancel (some t)) r' := by
  have hcur : r.lib.pthCurrent = some t → ∀ k, t ∉ keys (a k) := by
    intro ht k hk
    exact ha.away hk (by simpa [hc, eq_comm] using ht)
  have hlive := Sched.cancel_live ha.repr hcur hs
  rw [← hr'] at hlive
  by_cases hfree : r.lib.cancelsNow t && !(r.lib.tcb t).joinable
  · exact .one rfl (by simp [frees, Option.filter, hfree]) (by rw [hlive, if_pos hfree]) ht
  · exact .same rfl (by simp [frees, Option.filter, hfree]) (by rw [hlive, if_neg hfree])

theorem Called.balance {c : τ} {s : Sched τ} {a : QId → List (τ × ℤ)} (h : r.Called op s)
    (ha : r.lib.Consistent a {c}) (hc : r.lib.pthCurrent = some c) (hr' : r'.lib = s) :
    Balance r op r' := by
  cases h with
  | stays hq => exact .quiet hq (by rw [hr'])
  | favournew | objects => exact .same rfl rfl (by rw [hr'])
  | @yield t _ _ hs => exact .same rfl rfl (by rw [hr', ((ha.yield t).of_eq_some hs).2.live])
  | @suspend t _ _ hs => exact .same rfl rfl (by rw [hr', ((ha.suspend t).of_eq_some hs).2.live])
  | @resume t _ _ hs => exact .same rfl rfl (by rw [hr', ((ha.resume t).of_eq_some hs).2.live])
  | @cancel t _ _ hlive hs =>
    cases t with
    | none =>
      cases hs
      exact .same rfl rfl (by rw [hr'])
    | some t => exact balance_cancel ha hc (by simpa using hlive) hs hr'
  | @raise t _ _ _ _ _ hs =>
    cases t with
    | none =>
      cases hs
      exact .same rfl rfl (by rw [hr'])
    | some t => exact .same rfl rfl (by rw [hr', (Sched.raise_tcb ha hs).1])

/-- The block of a thread that comes back dead is freed, unless it can be joined. -/
theorem frees_comeback {c : τ} {now : Time} {guard : Guard} {still : SigSet}
    (hc : r.lib.pthCurrent = some c) (hguard : guard ≠ .killed) :
    r.frees (.comeback now guard still) =
      if (Sched.backTcb (guard = .caught) still (r.lib.tcb c)).state = .dead ∧
        (r.lib.tcb c).joinable = false then some c else none := by
  simp [frees, hguard, hc, Option.filter]

theorem Inv.balance {o : Out τ} (h : r.Inv) (hs : machine.Step r op o r') : Balance r op r' := by
  cases h.step hs with
  | call hrun hc _ _ _ _ _ hcall =>
    obtain ⟨-, a, ha⟩ := h.current hrun hc
    exact hcall.balance ha hc rfl
  | @spawn attr s t _ _ _ _ _ ht ho =>
    have halloc : allocates (.spawn attr .user (some t)) = some t := by simp [allocates]
    refine ⟨fun u => ?_, fun u hu => ?_, by simp [frees]⟩
    · simp [halloc, frees, ho.live, Sched.created, Function.update_apply, eq_comm]
    · obtain rfl : t = u := by simpa [halloc] using hu
      exact ht
  | keep _ _ _ _ _ _ hq => exact .quiet hq rfl
  | wait _ _ _ _ _ _ _ _ hq => exact .quiet hq rfl
  | exits _ _ _ _ _ _ hq => exact .quiet hq rfl
  | dies _ _ _ _ _ _ hq => exact .quiet hq rfl
  | waitReturn | attr | exited | killed => exact .same rfl rfl rfl
  | @joined s c u _ hrun hc hu ho _ _ htarget hmem =>
    obtain ⟨a, ha⟩ := h.consistent
    rw [ha.repr.threads] at hmem
    exact .one rfl (by simp [frees, hc, htarget, hu]) ho.live (ha.live hmem)
  | @comeback now guard still s c _ hsw hc _ hb hguard =>
    obtain ⟨a, ha⟩ := h.apart (by simp [hsw, Phase.holds]) hc
    have hfree : r.frees (.comeback now guard still) = _ := frees_comeback hc hguard
    have hlive := hb.live
    rw [hb.tcb, Function.update_self] at hlive
    split at hfree
    · next hdead =>
      refine .one rfl hfree (funext fun t => ?_) (ha.awayLive rfl).1
      simp [hlive, hdead, Function.update_apply]
    · next hdead =>
      refine .same rfl hfree (funext fun t => ?_)
      simp [hlive, hdead]
  | manage _ _ _ _ hp => exact .same rfl rfl hp.live
  | dispatch _ _ hd => exact .same rfl rfl hd.live

/-! ## Counting -/

/-- The blocks that `pth_init` has allocated. -/
def firstBlocks (r : Run τ) : τ → ℤ := fun t =>
  if t = r.lib.pthSched ∨ t = r.lib.pthMain then 1 else 0

/-- Count how often each block has been allocated more than freed. -/
def countBlocks (r : Run τ) (op : Op τ) (n : τ → ℤ) : τ → ℤ := fun t =>
  n t + (if allocates op = some t then 1 else 0) - (if r.frees op = some t then 1 else 0)

theorem Balance.count {n : τ → ℤ} (h : Balance r op r')
    (hn : ∀ t, n t = if r.lib.live t then 1 else 0) (t : τ) :
    r.countBlocks op n t = if r'.lib.live t then 1 else 0 := by
  have halloc := h.allocated t
  have hfree := h.freed t
  rw [h.live, countBlocks, hn]
  grind

/-- The count of a run says which blocks are allocated. -/
theorem counted_live {x : Run τ × (τ → ℤ)}
    (h : (machine.record firstBlocks countBlocks).Reachable x) :
    x.1.Inv ∧ ∀ t, x.2 t = if x.1.lib.live t then 1 else 0 := by
  refine h.invariant (I := fun x : Run τ × (τ → ℤ) => x.1.Inv ∧
    ∀ t, x.2 t = if x.1.lib.live t then 1 else 0) ?_ ?_
  · rintro x ⟨hinit, hn⟩
    refine ⟨Inv.init hinit, fun t => ?_⟩
    obtain ⟨s, main, sched, now, hne, hlib, -⟩ := hinit
    have hs := (s.pthInit_started now hne).of_eq_some hlib
    rw [hn, firstBlocks, hs.pthMain, hs.pthSched]
    simp only [hs.live, or_comm]
  · rintro x op o y ⟨hinv, hn⟩ - hs
    obtain ⟨hs, hw⟩ := hs.of_record
    refine ⟨(hinv.step hs).inv hinv, fun t => ?_⟩
    rw [hw]
    exact (hinv.balance hs).count hn t

/-- Every block is freed exactly as often as it has been allocated: in a run it is never
    freed twice and never used for a new thread before it is freed, and when the main thread
    calls `pth_kill`, that call frees each of the blocks that are left, once, and the
    scheduler's and its own. -/
theorem blocks_freed_once {n : τ → ℤ}
    (h : (machine.record firstBlocks countBlocks).Reachable (r, n)) :
    (∀ t, n t = if r.lib.live t then 1 else 0) ∧
      (r.phase = .running → r.lib.pthCurrent = some r.lib.pthMain →
        ∃ freed s, r.lib.pthKill true = some (.ok, freed, s) ∧ (∀ t, n t = freed.count t) ∧
          (∀ t, s.live t = false) ∧ s.queues.Repr fun _ => []) := by
  obtain ⟨hinv, hn⟩ := counted_live h
  refine ⟨hn, fun hrun hcur => ?_⟩
  obtain ⟨-, a, ha⟩ := hinv.current hrun hcur
  obtain ⟨⟨ret, freed, s⟩, hkill, rfl, hnodup, hmem, hlive, hr⟩ := ha.pthKill hcur
  refine ⟨freed, s, hkill, fun t => ?_, hlive, hr⟩
  have hcount : freed.count t = if t ∈ freed then 1 else 0 := hnodup.count
  simp only [hcount, hmem, Nat.cast_ite, Nat.cast_one, Nat.cast_zero]
  exact hn t

instance [Fintype τ] (x : Run τ × (τ → ℤ)) (op : Op τ) :
    Decidable ((machine.record firstBlocks countBlocks).enabled x op) :=
  inferInstanceAs (Decidable (x.1.enabled op))

/-- The thread 2 exits and waits to be joined, the thread 3 is new; then `pth_kill` frees all
    four blocks. -/
theorem blocks_freed_once_left : ∃ (r : Run (Fin 4)) (n : Fin 4 → ℤ),
    (machine.record firstBlocks countBlocks).Reachable (r, n) ∧ r.phase = .running ∧
    r.lib.pthCurrent = some r.lib.pthMain ∧ ∃ freed s,
      r.lib.pthKill true = some (.ok, freed, s) ∧ ∀ t, 1 = (freed.count t : ℤ) := by
  have hboot : (machine.record firstBlocks countBlocks).Reach (fun _ _ => True)
      (boot (Sched.blank (0 : Fin 4)) 0 1 .zero, firstBlocks (boot (Sched.blank 0) 0 1 .zero)) :=
    .init ⟨boot_init _ _ _ _ (by decide), rfl⟩
  obtain ⟨⟨r, n⟩, hr, hrun, hcur, hn⟩ := hboot.play
    (l := [.spawn none .user (some 2), .yield none, .comeback .zero .intact fun _ => false,
      .manage Sched.quiet, .dispatch, .exit 7 none, .comeback .zero .intact fun _ => false,
      .manage Sched.quiet, .dispatch, .spawn none .user (some 3)])
    (p := fun x => x.1.phase = .running ∧ x.1.lib.pthCurrent = some x.1.lib.pthMain ∧
      ∀ t, x.2 t = 1) (by decide)
  obtain ⟨-, hkill⟩ := blocks_freed_once hr
  obtain ⟨freed, s, hk, hcount, -⟩ := hkill hrun hcur
  exact ⟨r, n, hr, hrun, hcur, freed, s, hk, fun t => (hn t).symm.trans (hcount t)⟩

end Run

end Pth
