-- SUMMARY: Nodes that are partitioned into rings, and taking out the rings of given nodes.
import Mathlib.Data.List.Rotate
import Pth.Lib.Cycle

/-!
# Partitions into rings

A list of lists stands for several rings over one pair of link maps, one ring for
each list. A ring may be entered at any of its nodes: `ringAt` is the ring listed
from a given node on. -/

namespace Links

variable {α : Type*}

/-- The nodes of `R` are linked as disjoint rings, one for each list. -/
structure Rings (L : Links α) (R : List (List α)) : Prop where
  cycle : ∀ l ∈ R, L.Cycle l
  nodup : R.flatten.Nodup
  ne_nil : ∀ l ∈ R, l ≠ []

theorem Rings.nil (L : Links α) : L.Rings [] where
  cycle := by simp
  nodup := List.nodup_nil
  ne_nil := by simp

theorem rings_append {L : Links α} {R R' : List (List α)} :
    L.Rings (R ++ R') ↔ L.Rings R ∧ L.Rings R' ∧ ∀ x ∈ R.flatten, x ∉ R'.flatten := by
  constructor
  · intro h
    have hnd := List.nodup_append.mp (List.flatten_append ▸ h.nodup)
    refine ⟨⟨?_, hnd.1, ?_⟩, ⟨?_, hnd.2.1, ?_⟩, fun x hx hx' => hnd.2.2 x hx x hx' rfl⟩
    · exact fun l hl => h.cycle l (List.mem_append_left _ hl)
    · exact fun l hl => h.ne_nil l (List.mem_append_left _ hl)
    · exact fun l hl => h.cycle l (List.mem_append_right _ hl)
    · exact fun l hl => h.ne_nil l (List.mem_append_right _ hl)
  · rintro ⟨h, h', hdisj⟩
    refine ⟨fun l hl => ?_, ?_, fun l hl => ?_⟩
    · exact (List.mem_append.mp hl).elim (h.cycle l) (h'.cycle l)
    · rw [List.flatten_append, List.nodup_append]
      refine ⟨h.nodup, h'.nodup, ?_⟩
      rintro x hx y hy rfl
      exact hdisj x hx hy
    · exact (List.mem_append.mp hl).elim (h.ne_nil l) (h'.ne_nil l)

theorem rings_cons {L : Links α} {l : List α} {R : List (List α)} :
    L.Rings (l :: R) ↔
      (L.Cycle l ∧ l.Nodup ∧ l ≠ []) ∧ L.Rings R ∧ ∀ x ∈ l, x ∉ R.flatten := by
  have hone : L.Rings [l] ↔ L.Cycle l ∧ l.Nodup ∧ l ≠ [] :=
    ⟨fun h => ⟨h.cycle l (by simp), by simpa using h.nodup, h.ne_nil l (by simp)⟩,
      fun h => ⟨by simpa using h.1, by simpa using h.2.1, by simpa using h.2.2⟩⟩
  rw [← List.singleton_append, rings_append, hone]
  simp

/-- The order of the rings does not matter. -/
theorem Rings.perm {L : Links α} {R R' : List (List α)} (h : L.Rings R) (hp : R.Perm R') :
    L.Rings R' where
  cycle l hl := h.cycle l (hp.mem_iff.mpr hl)
  nodup := hp.flatten.nodup_iff.mp h.nodup
  ne_nil l hl := h.ne_nil l (hp.mem_iff.mpr hl)

/-- Rings only depend on the links of their own nodes. -/
theorem Rings.congr {L L' : Links α} {R : List (List α)} {S : List α} (h : L.Rings R)
    (hoff : L.EqOff S L') (hS : ∀ x ∈ R.flatten, x ∉ S) : L'.Rings R where
  cycle l hl :=
    (h.cycle l hl).congr fun x hx => hoff x (hS x (List.mem_flatten_of_mem hl hx))
  nodup := h.nodup
  ne_nil := h.ne_nil

/-- Joining two nodes leaves the rings of all others alone. -/
theorem Rings.bypass [DecidableEq α] {L : Links α} {R : List (List α)} {x y : α} (h : L.Rings R)
    (hx : x ∉ R.flatten) (hy : y ∉ R.flatten) : (L.bypass x y).Rings R := by
  refine h.congr (S := [x, y]) ?_ ?_
  · intro z hz
    simp only [List.mem_cons, List.not_mem_nil, or_false, not_or] at hz
    exact bypass_of_ne hz.1 hz.2
  · intro z hz hmem
    simp only [List.mem_cons, List.not_mem_nil, or_false] at hmem
    rcases hmem with rfl | rfl
    · exact hx hz
    · exact hy hz

/-- A ring is written over the nodes of `S`, where none of the other rings has a node. -/
theorem Rings.write {L L' : Links α} {R : List (List α)} {l S : List α} (h : L.Rings R)
    (hoff : L.EqOff S L') (hS : ∀ x ∈ S, x ∉ R.flatten) (hl : L'.Cycle l) (hn : l.Nodup)
    (hne : l ≠ []) (hsub : ∀ x ∈ l, x ∈ S) : L'.Rings (l :: R) :=
  rings_cons.mpr ⟨⟨hl, hn, hne⟩, h.congr hoff fun x hx hxS => hS x hxS hx,
    fun x hx => hS x (hsub x hx)⟩

/-- One more ring, unless it is empty. -/
def addRing (l : List α) (R : List (List α)) : List (List α) :=
  match l with
  | [] => R
  | a :: l => (a :: l) :: R

@[simp] theorem flatten_addRing (l : List α) (R : List (List α)) :
    (addRing l R).flatten = l ++ R.flatten := by
  cases l with
  | nil => rfl
  | cons a l => rfl

/-- A node is taken out of its ring, and the others of that ring are linked again. -/
theorem Rings.remove {L L' : Links α} {R : List (List α)} {A : List α} {x : α}
    (h : L.Rings ((x :: A) :: R)) (hoff : L.EqOff (x :: A) L') (hA : L'.Cycle A) :
    L'.Rings (addRing A R) := by
  obtain ⟨⟨-, hnd, -⟩, hR, hdisj⟩ := rings_cons.mp h
  cases A with
  | nil => exact hR.congr hoff fun y hy hS => hdisj y hS hy
  | cons a A =>
    exact hR.write hoff hdisj hA (List.nodup_cons.mp hnd).2 (by simp)
      fun y hy => List.mem_cons_of_mem _ hy

end Links

/-! ## The rings of given nodes -/

section

variable {α : Type*} [DecidableEq α]

/-- The ring of `x`, listed from `x` on. -/
def ringAt (R : List (List α)) (x : α) : List α :=
  match R.find? fun l => x ∈ l with
  | some l => l.rotate (l.idxOf x)
  | none => []

/-- The rings that none of the nodes `xs` is in. -/
def apart (R : List (List α)) (xs : List α) : List (List α) :=
  R.filter fun l => ∀ x ∈ xs, x ∉ l

omit [DecidableEq α] in
/-- The ring of a node, and what comes before and behind it. -/
private theorem exists_ring {R : List (List α)} {x : α} (hnd : R.flatten.Nodup)
    (hx : x ∈ R.flatten) :
    ∃ P A B Q, R = P ++ (A ++ x :: B) :: Q ∧ (∀ l ∈ P, x ∉ l) ∧ (∀ l ∈ Q, x ∉ l) ∧ x ∉ A := by
  obtain ⟨l, hl, hxl⟩ := List.mem_flatten.mp hx
  obtain ⟨P, Q, rfl⟩ := List.append_of_mem hl
  obtain ⟨A, B, rfl⟩ := List.append_of_mem hxl
  have hP : x ∉ P.flatten := by
    intro h
    rw [List.flatten_append] at hnd
    exact (List.nodup_append.mp hnd).2.2 x h x (by simp) rfl
  have hAQ : x ∉ A ∧ x ∉ Q.flatten := by
    rw [List.flatten_append, List.flatten_cons, List.append_assoc, List.cons_append] at hnd
    have hmid := (List.nodup_cons.mp (List.nodup_middle.mp (List.nodup_append.mp hnd).2.1)).1
    simp only [List.mem_append, not_or] at hmid
    exact ⟨hmid.1, hmid.2.2⟩
  refine ⟨P, A, B, Q, rfl, fun l hl hxl => hP ?_, fun l hl hxl => hAQ.2 ?_, hAQ.1⟩
  · exact List.mem_flatten_of_mem hl hxl
  · exact List.mem_flatten_of_mem hl hxl

/-- Where the ring of `x` is split at `x`. -/
private theorem ringAt_split {P Q : List (List α)} {A B : List α} {x : α}
    (hP : ∀ l ∈ P, x ∉ l) (hA : x ∉ A) :
    ringAt (P ++ (A ++ x :: B) :: Q) x = x :: (B ++ A) := by
  have hfind : P.find? (fun l => decide (x ∈ l)) = none := by
    simpa [List.find?_eq_none] using hP
  have hturn : (A ++ x :: B).rotate A.length = x :: (B ++ A) := by
    rw [List.rotate_append_length_eq]
    rfl
  simp [ringAt, List.find?_append, hfind, List.idxOf_append_of_notMem hA, hturn]

private theorem apart_split {P Q : List (List α)} {A B : List α} {x : α}
    (hP : ∀ l ∈ P, x ∉ l) (hQ : ∀ l ∈ Q, x ∉ l) :
    apart (P ++ (A ++ x :: B) :: Q) [x] = P ++ Q := by
  have hfilter : ∀ {R : List (List α)}, (∀ l ∈ R, x ∉ l) →
      R.filter (fun l => decide (∀ y ∈ [x], y ∉ l)) = R := by
    intro R hR
    simpa [List.filter_eq_self] using hR
  simp only [apart, List.filter_append, List.filter_cons, hfilter hP, hfilter hQ]
  simp

/-- The ring of one node is put in front, listed from that node on. -/
theorem Links.Rings.turn {L : Links α} {R : List (List α)} {x : α} (h : L.Rings R)
    (hx : x ∈ R.flatten) :
    (∃ A, ringAt R x = x :: A) ∧ L.Rings (ringAt R x :: apart R [x]) ∧
      (ringAt R x :: apart R [x]).flatten.Perm R.flatten := by
  obtain ⟨P, A, B, Q, rfl, hP, hQ, hA⟩ := exists_ring h.nodup hx
  rw [ringAt_split hP hA, apart_split hP hQ]
  have hperm : ((x :: (B ++ A)) :: (P ++ Q)).flatten.Perm (P ++ (A ++ x :: B) :: Q).flatten := by
    have hturn : (x :: (B ++ A)).Perm (A ++ x :: B) := by
      simpa using (List.perm_append_comm : ((x :: B) ++ A).Perm (A ++ x :: B))
    rw [List.flatten_cons, List.flatten_append, List.flatten_append, List.flatten_cons]
    exact (hturn.append_right _).trans (List.perm_append_comm_assoc _ _ _)
  refine ⟨⟨_, rfl⟩, ⟨?_, hperm.nodup_iff.mpr h.nodup, ?_⟩, hperm⟩
  · intro l hl
    rcases List.mem_cons.mp hl with rfl | hl
    · have hcycle : L.Cycle (A ++ x :: B) := h.cycle _ (by simp)
      simpa using hcycle.rotate
    · exact h.cycle l (by rw [List.mem_append] at hl ⊢; simp; tauto)
  · intro l hl
    rcases List.mem_cons.mp hl with rfl | hl
    · simp
    · exact h.ne_nil l (by rw [List.mem_append] at hl ⊢; simp; tauto)

/-- The ring of a node is found among the rings apart from another ring. -/
private theorem ringAt_apart {L : Links α} {R : List (List α)} {x y : α} (h : L.Rings R)
    (hx : x ∈ R.flatten) (hy : y ∉ ringAt R x) : ringAt (apart R [x]) y = ringAt R y := by
  obtain ⟨P, A, B, Q, rfl, hP, hQ, hA⟩ := exists_ring h.nodup hx
  rw [ringAt_split hP hA] at hy
  have hyl : y ∉ A ++ x :: B := by
    simp only [List.mem_cons, List.mem_append] at hy ⊢
    tauto
  simp only [ringAt, apart_split hP hQ, List.find?_append, List.find?_cons, hyl, decide_false]

/-- The rings of several nodes, no two of them in the same ring, are put in front, each listed
    from its node on. -/
theorem Links.Rings.expose {L : Links α} {R : List (List α)} {xs : List α} (h : L.Rings R)
    (hxs : ∀ x ∈ xs, x ∈ R.flatten) (hpw : xs.Pairwise fun x y => y ∉ ringAt R x) :
    L.Rings (xs.map (ringAt R) ++ apart R xs) ∧
      (xs.map (ringAt R) ++ apart R xs).flatten.Perm R.flatten := by
  induction xs generalizing R with
  | nil => simpa [apart] using h
  | cons x xs ih =>
    obtain ⟨hx, hxs⟩ := List.forall_mem_cons.mp hxs
    obtain ⟨hpwx, hpw⟩ := List.pairwise_cons.mp hpw
    obtain ⟨-, hturn, hperm⟩ := h.turn hx
    obtain ⟨⟨hcycle, hnd, hne⟩, hrest, hdisj⟩ := Links.rings_cons.mp hturn
    have hmem : ∀ y ∈ xs, y ∈ (apart R [x]).flatten := by
      intro y hy
      have hyR := hperm.mem_iff.mpr (hxs y hy)
      rw [List.flatten_cons, List.mem_append] at hyR
      exact hyR.resolve_left (hpwx y hy)
    have hsame : ∀ y ∈ xs, ringAt (apart R [x]) y = ringAt R y := fun y hy =>
      ringAt_apart h hx (hpwx y hy)
    have hapart : apart (apart R [x]) xs = apart R (x :: xs) := by
      simp [apart, List.filter_filter, Bool.and_comm]
    obtain ⟨hih, hihperm⟩ := ih hrest hmem
      (hpw.imp_of_mem fun ha _ hab => by rwa [hsame _ ha])
    rw [List.map_congr_left hsame, hapart] at hih hihperm
    refine ⟨?_, ?_⟩
    · rw [List.map_cons, List.cons_append, Links.rings_cons]
      exact ⟨⟨hcycle, hnd, hne⟩, hih, fun y hy => fun h' => hdisj y hy (hihperm.mem_iff.mp h')⟩
    · rw [List.map_cons, List.cons_append, List.flatten_cons]
      exact (hihperm.append_left _).trans hperm

end
