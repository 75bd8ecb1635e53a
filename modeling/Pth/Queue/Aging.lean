-- SUMMARY: A thread whose priority has aged to that of the others is no longer overtaken.
import Pth.Queue.Refine

/-!
# Aging

`pth_pqueue_increase` raises the priority of every thread of a queue by one, and only
touches the head for it. A thread that has been in the queue for long enough has at
least the priority of every thread that comes, so no thread is put in front of it any
more, and each `pth_pqueue_delmax` brings it nearer to the head. -/

namespace Pth

open PrioList (keys Sorted)

variable {κ α : Type*} [DecidableEq κ] [DecidableEq α]

namespace QueueOp

/-- The call is `pth_pqueue_increase` on the queue `k`. -/
def ages (k : κ) : QueueOp κ α → Bool
  | .increase k' => k' = k
  | _ => false

/-- The call is `pth_pqueue_delmax` on the queue `k`. -/
def takes (k : κ) : QueueOp κ α → Bool
  | .delmax k' => k' = k
  | _ => false

/-- What may happen to the queue `k` while the thread `t` waits in it: the first thread
    is taken, other threads are deleted or come with priority at most `M`, and all
    threads get older. The other queues are not restricted. -/
def Passes (k : κ) (t : α) (M : ℤ) : QueueOp κ α → Prop
  | .init k' | .favorite k' _ => k' ≠ k
  | .insert k' prio u => k' = k → u ≠ t ∧ prio ≤ M
  | .delete k' u => k' = k → u ≠ t
  | .delmax _ | .increase _ => True

/-- The list `l` of the queue `k` before and the list after such a call. -/
inductive Pass (k : κ) (t : α) (M : ℤ) (l : List (α × ℤ)) : QueueOp κ α → List (α × ℤ) → Prop
  | other {op : QueueOp κ α} (hages : op.ages k = false) (htakes : op.takes k = false) :
    Pass k t M l op l
  | delmax : Pass k t M l (.delmax k) l.tail
  | increase : Pass k t M l (.increase k) (PrioList.increase l)
  | delete {u : α} (hu : u ≠ t) : Pass k t M l (.delete k u) (PrioList.remove u l)
  | insert {u : α} {prio : ℤ} (hu : u ≠ t) (hprio : prio ≤ M) :
    Pass k t M l (.insert k prio u) (PrioList.insert prio u l)

/-! ## One call -/

section

variable {a : κ → List (α × ℤ)} {l l' : List (α × ℤ)} {k : κ} {t : α} {M q : ℤ} {op : QueueOp κ α}

omit [DecidableEq α] in
theorem takes_eq_true : op.takes k = true ↔ op = .delmax k := by
  cases op <;> simp [takes]

theorem Passes.pass (hpass : op.Passes k t M) (hs : Sorted (a k)) :
    Pass k t M (a k) op ((op.spec a).2 k) := by
  have hother : op.ages k = false → op.takes k = false → (op.spec a).2 k = a k →
      Pass k t M (a k) op ((op.spec a).2 k) := by
    intro hages htakes hsame
    rw [hsame]
    exact .other hages htakes
  cases op with
  | init k' => exact hother rfl rfl (Function.update_of_ne (Ne.symm hpass) ..)
  | favorite k' u => exact hother rfl rfl (Function.update_of_ne (Ne.symm hpass) ..)
  | insert k' prio u =>
    by_cases hk : k' = k
    · subst hk
      obtain ⟨hu, hprio⟩ := hpass rfl
      simpa [spec, hs.insert_eq_filter] using Pass.insert (k := k') (l := a k') hu hprio
    · exact hother rfl rfl (Function.update_of_ne (Ne.symm hk) ..)
  | delmax k' =>
    by_cases hk : k' = k
    · subst hk
      simpa [spec] using Pass.delmax (k := k') (t := t) (M := M) (l := a k')
    · exact hother rfl (by simp [takes, hk]) (Function.update_of_ne (Ne.symm hk) ..)
  | delete k' u =>
    by_cases hk : k' = k
    · subst hk
      simpa [spec, PrioList.remove] using Pass.delete (k := k') (M := M) (l := a k') (hpass rfl)
    · exact hother rfl rfl (Function.update_of_ne (Ne.symm hk) ..)
  | increase k' =>
    by_cases hk : k' = k
    · subst hk
      simpa [spec, PrioList.increase] using Pass.increase (k := k') (t := t) (M := M) (l := a k')
    · exact hother (by simp [ages, hk]) rfl (Function.update_of_ne (Ne.symm hk) ..)

/-- A thread that is not in the queue does not come to it. -/
theorem Pass.mem (h : Pass k t M l op l') (ht : t ∈ keys l') : t ∈ keys l := by
  cases h with
  | other => exact ht
  | delmax =>
    rw [keys, List.map_tail] at ht
    exact List.mem_of_mem_tail ht
  | increase => rwa [PrioList.keys_increase] at ht
  | delete hu => exact (PrioList.mem_keys_remove.mp ht).1
  | insert hu => exact (PrioList.mem_keys_insert.mp ht).resolve_left (Ne.symm hu)

/-- The thread leaves the queue only when it is taken. -/
theorem Pass.stays (h : Pass k t M l op l') (ht : t ∈ keys l) :
    t ∈ keys l' ∨ op = .delmax k ∧ (keys l).head? = some t := by
  cases h with
  | other => exact .inl ht
  | delmax =>
    cases l with
    | nil => simp at ht
    | cons e l =>
      rcases List.mem_cons.mp ht with rfl | ht
      · exact .inr ⟨rfl, rfl⟩
      · exact .inl ht
  | increase => exact .inl (by rwa [PrioList.keys_increase])
  | delete hu => exact .inl (PrioList.mem_keys_remove.mpr ⟨ht, Ne.symm hu⟩)
  | insert hu => exact .inl (PrioList.mem_keys_insert.mpr (.inr ht))

/-- The thread keeps its priority, or gets one older. -/
theorem Pass.entry (h : Pass k t M l op l') (hn : (keys l).Nodup) (hq : (t, q) ∈ l)
    (ht : t ∈ keys l') : (t, q + if op.ages k then 1 else 0) ∈ l' := by
  cases h with
  | other hages => simpa [hages] using hq
  | delmax =>
    cases l with
    | nil => simp at hq
    | cons e l =>
      have he : e.1 ∉ keys l := (List.nodup_cons.mp hn).1
      rcases List.mem_cons.mp hq with rfl | hq
      · exact absurd ht he
      · simpa [ages] using hq
  | increase => exact List.mem_map.mpr ⟨(t, q), hq, by simp [ages]⟩
  | delete hu => simpa [ages, PrioList.remove, Ne.symm hu] using hq
  | insert hu => simpa [ages] using PrioList.mem_insert.mpr (.inr hq)

omit [DecidableEq κ] in
/-- The number of threads in front of an entry. -/
theorem idxOf_split {A B : List (α × ℤ)} (hn : (keys (A ++ (t, q) :: B)).Nodup) :
    (keys (A ++ (t, q) :: B)).idxOf t = A.length := by
  rw [PrioList.keys_append, PrioList.keys_cons] at hn ⊢
  have ht : t ∉ keys A := fun hA => (List.nodup_append.mp hn).2.2 t hA t (by simp) rfl
  rw [List.idxOf_append_of_notMem ht, List.idxOf_cons_self, PrioList.keys_length, Nat.add_zero]

/-- A thread that has at least the priority of those that come is not overtaken, and
    every `pth_pqueue_delmax` brings it one place nearer to the head. -/
theorem Pass.front (h : Pass k t M l op l') (hn : (keys l).Nodup) (hs : Sorted l)
    (hq : (t, q) ∈ l) (hM : M ≤ q) (ht : t ∈ keys l') :
    (keys l').idxOf t ≤ (keys l).idxOf t ∧
      (op = .delmax k → (keys l').idxOf t + 1 = (keys l).idxOf t) := by
  cases h with
  | other hages htakes =>
    refine ⟨le_rfl, ?_⟩
    intro hdel
    rw [takes_eq_true.mpr hdel] at htakes
    cases htakes
  | delmax =>
    cases l with
    | nil => simp at hq
    | cons e l =>
      have he : e.1 ≠ t := fun he => (List.nodup_cons.mp hn).1 (he ▸ ht)
      rw [PrioList.keys_cons, List.idxOf_cons_ne _ he]
      exact ⟨Nat.le_succ _, fun _ => rfl⟩
  | increase => simp
  | @delete u hu =>
    obtain ⟨A, B, rfl⟩ := List.append_of_mem hq
    have hrem : PrioList.remove u (A ++ (t, q) :: B) =
        PrioList.remove u A ++ (t, q) :: PrioList.remove u B := by
      simp [PrioList.remove, Ne.symm hu]
    have hn' : (keys (PrioList.remove u (A ++ (t, q) :: B))).Nodup :=
      hn.sublist (List.filter_sublist.map _)
    rw [hrem] at hn' ⊢
    rw [idxOf_split hn, idxOf_split hn']
    exact ⟨List.length_filter_le _ _, by simp⟩
  | @insert u prio hu hprio =>
    obtain ⟨A, B, rfl, hins, -, hB⟩ := PrioList.insert_split prio u l
    -- all entries behind the new one have less than its priority
    have hA : t ∈ keys A := by
      rcases List.mem_append.mp hq with hq | hq
      · exact List.mem_map_of_mem hq
      · cases B with
        | nil => simp at hq
        | cons e B =>
          have he := hB e rfl
          have hle : q ≤ e.2 := by
            rcases List.mem_cons.mp hq with rfl | hq
            · exact Int.le_refl q
            · exact (List.pairwise_cons.mp (List.pairwise_append.mp hs).2.1).1 _ hq
          omega
    rw [hins, PrioList.keys_append, PrioList.keys_append, List.idxOf_append_of_mem hA,
      List.idxOf_append_of_mem hA]
    exact ⟨le_rfl, by simp⟩

end

/-! ## Sequences of calls -/

section

variable {s : Queues κ α} {a : κ → List (α × ℤ)} {k : κ} {t : α} {M p q : ℤ}
  {ops ops₁ ops₂ : List (QueueOp κ α)}

theorem specAll_append (a : κ → List (α × ℤ)) (ops₁ ops₂ : List (QueueOp κ α)) :
    (specAll a (ops₁ ++ ops₂)).2 = (specAll (specAll a ops₁).2 ops₂).2 := by
  induction ops₁ generalizing a with
  | nil => rfl
  | cons op ops ih => exact ih _

theorem allowedAll_append :
    AllowedAll a (ops₁ ++ ops₂) ↔ AllowedAll a ops₁ ∧ AllowedAll (specAll a ops₁).2 ops₂ := by
  induction ops₁ generalizing a with
  | nil => simp [AllowedAll, specAll]
  | cons op ops ih => simp [AllowedAll, specAll, ih, and_assoc]

/-- A thread that is in the queue at the end has been there all the time. -/
theorem mem_of_mem_specAll (h : s.Repr a) (hops : AllowedAll a ops)
    (hpass : ∀ op ∈ ops, op.Passes k t M) (ht : t ∈ keys ((specAll a ops).2 k)) :
    t ∈ keys (a k) := by
  induction ops generalizing s a with
  | nil => exact ht
  | cons op ops ih =>
    obtain ⟨s₁, -, h₁⟩ := exec_refines h hops.1
    obtain ⟨hop, hrest⟩ := List.forall_mem_cons.mp hpass
    exact (hop.pass (h.queue k).sorted).mem (ih h₁ hops.2 hrest ht)

/-- Its priority has risen with every `pth_pqueue_increase`. -/
theorem entry_specAll (h : s.Repr a) (hops : AllowedAll a ops)
    (hpass : ∀ op ∈ ops, op.Passes k t M) (hq : (t, q) ∈ a k)
    (ht : t ∈ keys ((specAll a ops).2 k)) :
    (t, q + ops.countP (ages k)) ∈ (specAll a ops).2 k := by
  induction ops generalizing s a q with
  | nil => simpa [specAll] using hq
  | cons op ops ih =>
    obtain ⟨s₁, -, h₁⟩ := exec_refines h hops.1
    obtain ⟨hop, hrest⟩ := List.forall_mem_cons.mp hpass
    have ht₁ := mem_of_mem_specAll h₁ hops.2 hrest ht
    have hq₁ := (hop.pass (h.queue k).sorted).entry (h.queue k).nodup hq ht₁
    have hcount : q + (op :: ops).countP (ages k) =
        q + (if op.ages k then 1 else 0) + ops.countP (ages k) := by
      rw [List.countP_cons]
      push_cast
      split <;> omega
    rw [hcount]
    exact ih h₁ hops.2 hrest hq₁ ht

/-- An old thread is returned at the latest when those in front of it are gone. -/
theorem taken_specAll (h : s.Repr a) (hops : AllowedAll a ops)
    (hpass : ∀ op ∈ ops, op.Passes k t M) (hq : (t, q) ∈ a k) (hM : M ≤ q)
    (hlong : (keys (a k)).idxOf t < ops.countP (takes k)) :
    ∃ i : ℕ, ops[i]? = some (.delmax k) ∧ (specAll a ops).1[i]? = some (.thread (some t)) := by
  induction ops generalizing s a q with
  | nil => simp at hlong
  | cons op ops ih =>
    obtain ⟨s₁, -, h₁⟩ := exec_refines h hops.1
    obtain ⟨hop, hrest⟩ := List.forall_mem_cons.mp hpass
    have hp := hop.pass (h.queue k).sorted
    rcases hp.stays (List.mem_map_of_mem hq) with ht | ⟨rfl, hhead⟩
    · obtain ⟨hle, htake⟩ := hp.front (h.queue k).nodup (h.queue k).sorted hq hM ht
      have hq₁ := hp.entry (h.queue k).nodup hq ht
      have hlong₁ : (keys ((op.spec a).2 k)).idxOf t < ops.countP (takes k) := by
        rw [List.countP_cons] at hlong
        split at hlong
        · next htakes =>
          have := htake (takes_eq_true.mp htakes)
          omega
        · omega
      obtain ⟨i, hi, hr⟩ := ih h₁ hops.2 hrest hq₁ (by split <;> omega) hlong₁
      exact ⟨i + 1, by simpa using hi, by simpa [specAll] using hr⟩
    · exact ⟨0, rfl, by simp [specAll, spec, hhead]⟩

/-- Once a thread has aged to the priority `M` of the threads that may come, no thread is
    put in front of it: the number of threads in front of it never grows, every
    `pth_pqueue_delmax` lowers it by one, and the thread is returned at the latest when
    all of them have been. -/
theorem aged_not_overtaken (h : s.Repr a) (hp : (t, p) ∈ s.entries k)
    (hops : AllowedAll a (ops₁ ++ ops₂)) (hpass : ∀ op ∈ ops₁ ++ ops₂, op.Passes k t M)
    (hold : M - p ≤ ops₁.countP (ages k)) :
    ∃ rs₁ s₁ rs₂ s₂, execAll s ops₁ = some (rs₁, s₁) ∧ execAll s₁ ops₂ = some (rs₂, s₂) ∧
      (t ∈ s₂.threads k → ∀ op : QueueOp κ α,
        op.Allowed (specAll a (ops₁ ++ ops₂)).2 → op.Passes k t M →
        ∃ r s₃, op.exec s₂ = some (r, s₃) ∧ (t ∈ s₃.threads k →
          (s₃.threads k).idxOf t ≤ (s₂.threads k).idxOf t ∧
          (op = .delmax k → (s₃.threads k).idxOf t + 1 = (s₂.threads k).idxOf t))) ∧
      (t ∈ s₁.threads k → (s₁.threads k).idxOf t < ops₂.countP (takes k) →
        ∃ i : ℕ, ops₂[i]? = some (.delmax k) ∧ rs₂[i]? = some (.thread (some t))) := by
  obtain ⟨hops₁, hops₂⟩ := allowedAll_append.mp hops
  obtain ⟨hpass₁, hpass₂⟩ := List.forall_mem_append.mp hpass
  obtain ⟨s₁, hexec₁, h₁⟩ := execAll_refines h hops₁
  obtain ⟨s₂, hexec₂, h₂⟩ := execAll_refines h₁ hops₂
  rw [h.entries] at hp
  have hent : t ∈ keys ((specAll a ops₁).2 k) →
      (t, p + ops₁.countP (ages k)) ∈ (specAll a ops₁).2 k := entry_specAll h hops₁ hpass₁ hp
  refine ⟨_, s₁, _, s₂, hexec₁, hexec₂, ?_, ?_⟩
  · intro ht₂ op hop hpop
    rw [specAll_append] at hop
    obtain ⟨s₃, hexec₃, h₃⟩ := exec_refines h₂ hop
    refine ⟨_, s₃, hexec₃, fun ht₃ => ?_⟩
    rw [h₃.threads] at ht₃ ⊢
    rw [h₂.threads] at ht₂ ⊢
    have hq₂ := entry_specAll h₁ hops₂ hpass₂ (hent (mem_of_mem_specAll h₁ hops₂ hpass₂ ht₂)) ht₂
    exact (hpop.pass (h₂.queue k).sorted).front (h₂.queue k).nodup (h₂.queue k).sorted hq₂
      (by omega) ht₃
  · intro ht₁ hlong
    rw [h₁.threads] at ht₁ hlong
    exact taken_specAll h₁ hops₂ hpass₂ (hent ht₁) (by omega) hlong

/-- The thread 2 has grown two older when 3 comes, and is returned by the second
    `pth_pqueue_delmax`. -/
theorem aged_not_overtaken_three : ∃ s s₁ s₂ : Queues Unit ℕ,
    s.entries () = [(1, 3), (2, 0)] ∧
    execAll s [.increase (), .increase ()] = some ([.void, .void], s₁) ∧
    ∃ rs₂, execAll s₁ [.insert () 2 3, .delmax (), .delmax ()] = some (rs₂, s₂) ∧
      ∃ i : ℕ, rs₂[i]? = some (.thread (some 2)) := by
  have hins : AllowedAll (κ := Unit) (α := ℕ) (fun _ => []) [.insert () 3 1, .insert () 0 2] := by
    simp [AllowedAll, Allowed, spec]
  obtain ⟨s, -, h⟩ := execAll_refines (Queues.Repr.fresh ⟨⟨fun _ => none, fun _ => none⟩,
    fun _ => 0⟩) hins
  have hent : s.entries () = [(1, 3), (2, 0)] := by
    rw [h.entries]
    rfl
  have hops : AllowedAll (specAll (fun _ => []) [.insert () 3 1, .insert () 0 2]).2
      ([.increase (), .increase ()] ++ [.insert () 2 3, .delmax (), .delmax ()]) := by
    simp [AllowedAll, Allowed, spec, specAll]
  obtain ⟨rs₁, s₁, rs₂, s₂, hexec₁, hexec₂, -, htaken⟩ := aged_not_overtaken (k := ()) (t := 2)
    (M := 2) (p := 0) h (by simp [hent]) hops (by simp [Passes]) (by decide)
  obtain ⟨s₁', hexec', h₁⟩ := execAll_refines h (allowedAll_append.mp hops).1
  obtain ⟨rfl, rfl⟩ := Prod.mk.inj (Option.some.inj (hexec₁.symm.trans hexec'))
  have hthreads : s₁.threads () = [1, 2] := by
    rw [h₁.threads]
    rfl
  obtain ⟨i, -, hi⟩ := htaken (by simp [hthreads]) (by rw [hthreads]; decide)
  exact ⟨s, s₁, s₂, hent, hexec', rs₂, hexec₂, i, hi⟩

end

end QueueOp

end Pth
