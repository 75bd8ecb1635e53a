-- SUMMARY: Lists kept in falling priority order, and their encoding by priority differences.
import Mathlib.Data.List.Chain
import Mathlib.Data.List.Nodup
import Mathlib.Logic.Function.Basic
import Mathlib.Tactic.Common

/-!
# Priority-ordered lists

The abstract value of a priority queue: a list of keys with their priorities,
highest priority first, first come first served among equals. The second half
describes the storage of such a list by differences, where only the first entry
stores its priority and every other one its distance to the entry before it.
-/

namespace PrioList

variable {α : Type*}

/-- The keys of the entries, in order. -/
def keys (l : List (α × ℤ)) : List α := l.map Prod.fst

/-- No entry is followed by one of higher priority. -/
def Sorted (l : List (α × ℤ)) : Prop := l.Pairwise fun a b => b.2 ≤ a.2

/-- Insert behind every entry of greater or equal priority. -/
def insert (p : ℤ) (t : α) : List (α × ℤ) → List (α × ℤ)
  | [] => [(t, p)]
  | e :: l => if p ≤ e.2 then e :: insert p t l else (t, p) :: e :: l

/-- Raise every priority by one. -/
def increase (l : List (α × ℤ)) : List (α × ℤ) := l.map fun e => (e.1, e.2 + 1)

@[simp] theorem keys_nil : keys ([] : List (α × ℤ)) = [] := rfl

@[simp] theorem keys_cons (e : α × ℤ) (l : List (α × ℤ)) : keys (e :: l) = e.1 :: keys l := rfl

@[simp] theorem keys_append (A B : List (α × ℤ)) : keys (A ++ B) = keys A ++ keys B :=
  List.map_append

@[simp] theorem keys_length (l : List (α × ℤ)) : (keys l).length = l.length := List.length_map _

@[simp] theorem keys_increase (l : List (α × ℤ)) : keys (increase l) = keys l := by
  simp [keys, increase]

theorem keys_middle_perm (A B : List (α × ℤ)) (e : α × ℤ) :
    (keys (A ++ e :: B)).Perm (e.1 :: keys (A ++ B)) := List.perm_middle.map Prod.fst

theorem mem_keys {t : α} {l : List (α × ℤ)} : t ∈ keys l ↔ ∃ p, (t, p) ∈ l := by
  simp [keys]

/-! ## Inserting -/

/-- Where the entry goes: all entries before it have at least its priority, and
    the entry behind it, if any, has less. -/
theorem insert_split (p : ℤ) (t : α) (l : List (α × ℤ)) :
    ∃ A B, l = A ++ B ∧ insert p t l = A ++ (t, p) :: B ∧
      (∀ e ∈ A, p ≤ e.2) ∧ ∀ e, B.head? = some e → e.2 < p := by
  induction l with
  | nil => exact ⟨[], [], rfl, rfl, by simp, by simp⟩
  | cons a l ih =>
    by_cases ha : p ≤ a.2
    · obtain ⟨A, B, hl, hins, hA, hB⟩ := ih
      refine ⟨a :: A, B, by simp [hl], by simp [insert, ha, hins], ?_, hB⟩
      simpa [ha] using hA
    · refine ⟨[], a :: l, rfl, by simp [insert, ha], by simp, ?_⟩
      intro e he
      obtain rfl : a = e := by simpa using he
      omega

/-- Inserting at the split point of a list. -/
theorem insert_append {p : ℤ} {t : α} {A B : List (α × ℤ)} (hA : ∀ e ∈ A, p ≤ e.2)
    (hB : ∀ e, B.head? = some e → e.2 < p) : insert p t (A ++ B) = A ++ (t, p) :: B := by
  induction A with
  | nil =>
    cases B with
    | nil => rfl
    | cons b B =>
      have hb := hB b rfl
      have : ¬ p ≤ b.2 := by omega
      simp [insert, this]
  | cons a A ih =>
    have ha := hA a (by simp)
    simp [insert, ha, ih fun e he => hA e (List.mem_cons_of_mem _ he)]

theorem insert_perm (p : ℤ) (t : α) (l : List (α × ℤ)) : (insert p t l).Perm ((t, p) :: l) := by
  obtain ⟨A, B, rfl, hins, -, -⟩ := insert_split p t l
  rw [hins]
  exact List.perm_middle

theorem keys_insert_perm (p : ℤ) (t : α) (l : List (α × ℤ)) :
    (keys (insert p t l)).Perm (t :: keys l) := (insert_perm p t l).map Prod.fst

theorem mem_insert {p : ℤ} {t : α} {l : List (α × ℤ)} {e : α × ℤ} :
    e ∈ insert p t l ↔ e = (t, p) ∨ e ∈ l := by
  rw [(insert_perm p t l).mem_iff, List.mem_cons]

theorem mem_keys_insert {p : ℤ} {t u : α} {l : List (α × ℤ)} :
    u ∈ keys (insert p t l) ↔ u = t ∨ u ∈ keys l := by
  rw [(keys_insert_perm p t l).mem_iff, List.mem_cons]

/-- Insert the keys of a list one after the other. -/
def insertAll (p : α → ℤ) (ts : List α) (l : List (α × ℤ)) : List (α × ℤ) :=
  ts.foldl (fun l t => insert (p t) t l) l

theorem mem_keys_insertAll {p : α → ℤ} {ts : List α} {l : List (α × ℤ)} {u : α} :
    u ∈ keys (insertAll p ts l) ↔ u ∈ ts ∨ u ∈ keys l := by
  induction ts generalizing l with
  | nil => simp [insertAll]
  | cons t ts ih =>
    simp only [insertAll, List.foldl_cons] at ih ⊢
    rw [ih, mem_keys_insert, List.mem_cons]
    tauto

theorem Sorted.insert {p : ℤ} {t : α} {l : List (α × ℤ)} (h : Sorted l) :
    Sorted (insert p t l) := by
  obtain ⟨A, B, rfl, hins, hA, hB⟩ := insert_split p t l
  rw [hins, Sorted, List.pairwise_append, List.pairwise_cons]
  obtain ⟨hsA, hsB, hAB⟩ := List.pairwise_append.mp h
  have hlow : ∀ e ∈ B, e.2 ≤ p := by
    cases B with
    | nil => simp
    | cons b B =>
      have hb := hB b rfl
      intro e he
      rcases List.mem_cons.mp he with rfl | he
      · omega
      · have := (List.pairwise_cons.mp hsB).1 e he
        omega
  refine ⟨hsA, ⟨hlow, hsB⟩, ?_⟩
  intro a ha b hb
  rcases List.mem_cons.mp hb with rfl | hb
  · exact hA a ha
  · exact hAB a ha b hb

/-- In a sorted list the place of a new entry only depends on the priorities:
    behind all entries that have at least its priority, before all others. -/
theorem Sorted.insert_eq_filter {p : ℤ} {t : α} {l : List (α × ℤ)} (h : Sorted l) :
    PrioList.insert p t l =
      (l.filter fun e => p ≤ e.2) ++ (t, p) :: l.filter fun e => e.2 < p := by
  induction l with
  | nil => rfl
  | cons a l ih =>
    obtain ⟨hal, hl⟩ := List.pairwise_cons.mp h
    by_cases ha : p ≤ a.2
    · have hlt : ¬ a.2 < p := by omega
      simp [PrioList.insert, ha, hlt, ih hl]
    · have hlt : a.2 < p := by omega
      have hall : ∀ e ∈ l, e.2 < p := fun e he => by have := hal e he; omega
      have hnone : l.filter (fun e => decide (p ≤ e.2)) = [] :=
        List.filter_eq_nil_iff.mpr fun e he => by have := hall e he; simpa using this
      have hself : l.filter (fun e => decide (e.2 < p)) = l :=
        List.filter_eq_self.mpr fun e he => by simpa using hall e he
      simp [PrioList.insert, ha, hlt, hnone, hself]

/-- A priority above the first entry's goes to the front. -/
theorem insert_front {p : ℤ} {t : α} {l : List (α × ℤ)}
    (h : ∀ e, l.head? = some e → e.2 < p) : insert p t l = (t, p) :: l := by
  simpa using insert_append (A := []) (B := l) (t := t) (by simp) h

/-- An entry stays first when the priority of another one is not above its own. -/
theorem head?_insert {p q : ℤ} {t u : α} {l : List (α × ℤ)} (hu : u ≠ t) :
    (insert p u l).head? = some (t, q) ↔ l.head? = some (t, q) ∧ p ≤ q := by
  cases l with
  | nil => simp [insert, hu]
  | cons e l =>
    by_cases he : p ≤ e.2
    · simp only [insert, if_pos he, List.head?_cons, Option.some.injEq]
      refine ⟨fun h => ⟨h, ?_⟩, fun h => h.1⟩
      rwa [h] at he
    · simp only [insert, if_neg he, List.head?_cons, Option.some.injEq]
      refine ⟨fun h => absurd (congrArg Prod.fst h) hu, fun h => absurd h.2 ?_⟩
      rwa [h.1] at he

theorem head?_insertAll {p : α → ℤ} {q : ℤ} {t : α} {ts : List α} {l : List (α × ℤ)}
    (ht : t ∉ ts) :
    (insertAll p ts l).head? = some (t, q) ↔ l.head? = some (t, q) ∧ ∀ u ∈ ts, p u ≤ q := by
  induction ts generalizing l with
  | nil => simp [insertAll]
  | cons u ts ih =>
    obtain ⟨htu, hts⟩ := not_or.mp (mt List.mem_cons.mpr ht)
    have hall : insertAll p (u :: ts) l = insertAll p ts (insert (p u) u l) := rfl
    rw [hall, ih hts, head?_insert (Ne.symm htu), List.forall_mem_cons, and_assoc]

theorem head?_keys {t : α} {l : List (α × ℤ)} :
    (keys l).head? = some t ↔ ∃ q, l.head? = some (t, q) := by
  cases l with
  | nil => simp
  | cons e l => simp [Prod.ext_iff]

theorem Sorted.increase {l : List (α × ℤ)} (h : Sorted l) : Sorted (increase l) := by
  refine List.pairwise_map.mpr (h.imp ?_)
  intro a b hab
  simpa using hab

theorem Sorted.remove {A B : List (α × ℤ)} {e : α × ℤ} (h : Sorted (A ++ e :: B)) :
    Sorted (A ++ B) :=
  h.sublist ((List.sublist_cons_self e B).append_left A)

/-! ## Removing, and moving to the front -/

section

variable [DecidableEq α]

/-- Take the entry of `t` out. -/
def remove (t : α) (l : List (α × ℤ)) : List (α × ℤ) := l.filter fun e => e.1 ≠ t

/-- Move `t` to the front, one above the others. A lone entry keeps its
    priority. -/
def favorite (t : α) (l : List (α × ℤ)) : List (α × ℤ) :=
  match l.length, remove t l with
  | 1, _ => l
  | _, [] => []
  | _, d :: r => (t, d.2 + 1) :: d :: r

theorem remove_of_not_mem {t : α} {l : List (α × ℤ)} (ht : t ∉ keys l) : remove t l = l := by
  refine List.filter_eq_self.mpr fun e he => ?_
  have hne : e.1 ≠ t := by
    rintro rfl
    exact ht (List.mem_map_of_mem he)
  simpa using hne

theorem remove_append_cons {t : α} {p : ℤ} {A B : List (α × ℤ)}
    (hn : (keys (A ++ (t, p) :: B)).Nodup) : remove t (A ++ (t, p) :: B) = A ++ B := by
  rw [keys_append, List.nodup_append] at hn
  obtain ⟨-, hB, hdisj⟩ := hn
  have htA : t ∉ keys A := fun hm => hdisj t hm t (by simp) rfl
  have htB : t ∉ keys B := (List.nodup_cons.mp hB).1
  have hA : remove t A = A := remove_of_not_mem htA
  have hB : remove t B = B := remove_of_not_mem htB
  unfold remove at hA hB ⊢
  rw [List.filter_append, List.filter_cons_of_neg (by simp), hA, hB]

theorem mem_keys_remove {t u : α} {l : List (α × ℤ)} :
    u ∈ keys (remove t l) ↔ u ∈ keys l ∧ u ≠ t := by
  simp [mem_keys, remove]

omit [DecidableEq α] in
/-- The entry of a key, with the entries before and behind it. -/
theorem exists_split {t : α} {l : List (α × ℤ)} (ht : t ∈ keys l) :
    ∃ p A B, l = A ++ (t, p) :: B := by
  obtain ⟨p, hp⟩ := mem_keys.mp ht
  obtain ⟨A, B, rfl⟩ := List.append_of_mem hp
  exact ⟨p, A, B, rfl⟩

theorem favorite_of_remove {t : α} {d : α × ℤ} {l r : List (α × ℤ)} (hl : l.length ≠ 1)
    (hr : remove t l = d :: r) : favorite t l = (t, d.2 + 1) :: d :: r := by
  unfold favorite
  split
  · contradiction
  · simp_all
  · simp_all

theorem mem_keys_favorite {t u : α} {l : List (α × ℤ)} (ht : t ∈ keys l)
    (hn : (keys l).Nodup) : u ∈ keys (favorite t l) ↔ u ∈ keys l := by
  obtain ⟨p, A, B, rfl⟩ := exists_split ht
  have hrem := remove_append_cons hn
  cases hAB : A ++ B with
  | nil =>
    obtain ⟨rfl, rfl⟩ := List.append_eq_nil_iff.mp hAB
    exact Iff.rfl
  | cons d r =>
    have hlen : (A ++ (t, p) :: B).length ≠ 1 := by
      have := congrArg List.length hAB
      simp at this ⊢
      omega
    rw [favorite_of_remove hlen (hrem.trans hAB), keys_cons, ← hAB]
    simp only [keys_append, keys_cons, List.mem_append, List.mem_cons]
    tauto

/-- The priority of `t` after it has moved to the front. -/
def boost (t : α) (l : List (α × ℤ)) : ℤ :=
  match remove t l, l with
  | d :: _, _ => d.2 + 1
  | [], e :: _ => e.2
  | [], [] => 0

theorem head?_favorite {t : α} {l : List (α × ℤ)} (ht : t ∈ keys l) (hn : (keys l).Nodup) :
    (favorite t l).head? = some (t, boost t l) := by
  obtain ⟨p, A, B, rfl⟩ := exists_split ht
  have hrem := remove_append_cons hn
  cases hAB : A ++ B with
  | nil =>
    obtain ⟨rfl, rfl⟩ := List.append_eq_nil_iff.mp hAB
    simp only [List.nil_append, List.append_nil] at hrem ⊢
    simp [favorite, boost, hrem]
  | cons d r =>
    have hlen : (A ++ (t, p) :: B).length ≠ 1 := by
      have := congrArg List.length hAB
      simp at this ⊢
      omega
    rw [favorite_of_remove hlen (hrem.trans hAB)]
    simp [boost, hrem, hAB]

end

/-! ## Encoding by differences -/

/-- `v` stores the priority of the first entry and, at every other key, how much
    its priority lies below the one of the entry before it. -/
def Encodes (v : α → ℤ) (l : List (α × ℤ)) : Prop :=
  (∀ e, l.head? = some e → v e.1 = e.2) ∧ l.IsChain fun a b => v b.1 = a.2 - b.2

@[simp] theorem encodes_nil (v : α → ℤ) : Encodes v [] := ⟨by simp, .nil⟩

theorem encodes_singleton {v : α → ℤ} {e : α × ℤ} : Encodes v [e] ↔ v e.1 = e.2 := by
  simp [Encodes]

theorem encodes_cons_cons {v : α → ℤ} {a b : α × ℤ} {l : List (α × ℤ)} :
    Encodes v (a :: b :: l) ↔
      v a.1 = a.2 ∧ v b.1 = a.2 - b.2 ∧ (b :: l).IsChain fun a b => v b.1 = a.2 - b.2 := by
  simp [Encodes]

/-- Read the priorities behind an entry of priority `p`. -/
def decodeFrom (v : α → ℤ) : ℤ → List α → List (α × ℤ)
  | _, [] => []
  | p, t :: ts => (t, p - v t) :: decodeFrom v (p - v t) ts

/-- Read the entries of some keys. -/
def decode (v : α → ℤ) : List α → List (α × ℤ)
  | [] => []
  | t :: ts => (t, v t) :: decodeFrom v (v t) ts

theorem decodeFrom_keys {v : α → ℤ} {e : α × ℤ} {l : List (α × ℤ)}
    (h : (e :: l).IsChain fun a b => v b.1 = a.2 - b.2) : decodeFrom v e.2 (keys l) = l := by
  induction l generalizing e with
  | nil => rfl
  | cons d l ih =>
    obtain ⟨hd, hl⟩ := List.isChain_cons_cons.mp h
    have hprio : e.2 - v d.1 = d.2 := by omega
    simp only [keys_cons, decodeFrom, hprio, ih hl]

theorem Encodes.decode_keys {v : α → ℤ} {l : List (α × ℤ)} (h : Encodes v l) :
    decode v (keys l) = l := by
  cases l with
  | nil => rfl
  | cons e l =>
    have he : v e.1 = e.2 := h.1 e rfl
    simp only [keys_cons, decode, he, decodeFrom_keys h.2]

private theorem chain_congr {v w : α → ℤ} {l : List (α × ℤ)}
    (h : ∀ e ∈ l.tail, w e.1 = v e.1) (hl : l.IsChain fun a b => v b.1 = a.2 - b.2) :
    l.IsChain fun a b => w b.1 = a.2 - b.2 := by
  refine List.IsChain.imp_of_mem_tail_imp (fun a b _ hb hab => ?_) hl
  rw [h b hb]
  exact hab

/-- The encoding only depends on what is stored at the keys of the list. -/
theorem Encodes.congr {v w : α → ℤ} {l : List (α × ℤ)} (h : ∀ t ∈ keys l, w t = v t)
    (hl : Encodes v l) : Encodes w l := by
  have hmem : ∀ e ∈ l, w e.1 = v e.1 := fun e he => h e.1 (List.mem_map_of_mem he)
  refine ⟨fun e he => ?_, chain_congr (fun e he => hmem e (List.mem_of_mem_tail he)) hl.2⟩
  rw [hmem e (List.mem_of_mem_head? he)]
  exact hl.1 e he

/-- Every entry but the first stores a non-negative difference. -/
theorem Encodes.nonneg {v : α → ℤ} {l : List (α × ℤ)} (h : Encodes v l) (hs : Sorted l) :
    ∀ t ∈ (keys l).tail, 0 ≤ v t := by
  obtain ⟨-, hchain⟩ := h
  induction l with
  | nil => simp
  | cons a l ih =>
    cases l with
    | nil => simp
    | cons b l =>
      obtain ⟨hab, hl⟩ := List.isChain_cons_cons.mp hchain
      obtain ⟨hle, hsl⟩ := List.pairwise_cons.mp hs
      intro t ht
      rcases List.mem_cons.mp ht with rfl | ht
      · have := hle b (by simp)
        omega
      · exact ih hsl hl t ht

theorem Encodes.remove_last {v : α → ℤ} {e : α × ℤ} {A : List (α × ℤ)}
    (h : Encodes v (A ++ [e])) : Encodes v A := by
  refine ⟨fun a ha => h.1 a ?_, (List.isChain_append.mp h.2).1⟩
  have hne : A ≠ [] := by rintro rfl; simp at ha
  rwa [List.head?_append_of_ne_nil _ hne]

variable [DecidableEq α]

/-- What is stored at the keys of `l` does not change when another key is
    written. -/
private theorem update_of_not_mem {v : α → ℤ} {t : α} {x : ℤ} {l : List (α × ℤ)}
    (ht : t ∉ keys l) : ∀ e ∈ l, Function.update v t x e.1 = v e.1 := by
  intro e he
  refine Function.update_of_ne ?_ _ _
  rintro rfl
  exact ht (List.mem_map_of_mem he)

/-- A new first entry: the old first entry now stores a difference. -/
theorem Encodes.cons {v : α → ℤ} {t : α} {p : ℤ} {e : α × ℤ} {l : List (α × ℤ)}
    (h : Encodes v (e :: l)) (hn : (keys (e :: l)).Nodup) (ht : t ∉ keys (e :: l)) :
    Encodes (Function.update (Function.update v t p) e.1 (p - v e.1)) ((t, p) :: e :: l) := by
  have hte : t ≠ e.1 := by rintro rfl; simp at ht
  have hve : v e.1 = e.2 := h.1 e rfl
  refine encodes_cons_cons.mpr ⟨by simp [hte], by simp [hve], chain_congr ?_ h.2⟩
  intro b hb
  have hel : e.1 ∉ keys l := (List.nodup_cons.mp hn).1
  have htl : t ∉ keys l := fun hm => ht (List.mem_cons_of_mem _ hm)
  rw [update_of_not_mem hel b hb, update_of_not_mem htl b hb]

/-- A new entry behind the entry `c`: it stores its distance to `c`, and the
    entry behind it, if any, its distance to the new entry. -/
theorem Encodes.insert_last {v : α → ℤ} {t : α} {p : ℤ} {c : α × ℤ} {A : List (α × ℤ)}
    (h : Encodes v (A ++ [c])) (ht : t ∉ keys (A ++ [c])) :
    Encodes (Function.update v t (c.2 - p)) (A ++ [c] ++ [(t, p)]) := by
  have hmem : ∀ e ∈ A ++ [c], Function.update v t (c.2 - p) e.1 = v e.1 := update_of_not_mem ht
  have hold : Encodes (Function.update v t (c.2 - p)) (A ++ [c]) :=
    h.congr fun u hu => by
      obtain ⟨e, he, rfl⟩ := List.mem_map.mp hu
      exact hmem e he
  refine ⟨fun e he => hold.1 e ?_, ?_⟩
  · rwa [List.head?_append_of_ne_nil _ (by simp)] at he
  · have hsplit : A ++ [c] ++ [(t, p)] = A ++ c :: (t, p) :: [] := by simp
    rw [hsplit, List.isChain_append_cons_cons]
    exact ⟨hold.2, by simp, .singleton _⟩

theorem Encodes.insert_middle {v : α → ℤ} {t : α} {p : ℤ} {c d : α × ℤ}
    {A B : List (α × ℤ)} (h : Encodes v (A ++ c :: d :: B))
    (hn : (keys (A ++ c :: d :: B)).Nodup) (ht : t ∉ keys (A ++ c :: d :: B)) :
    Encodes (Function.update (Function.update v t (c.2 - p)) d.1 (v d.1 - (c.2 - p)))
      (A ++ c :: (t, p) :: d :: B) := by
  obtain ⟨hhead, hchain⟩ := h
  rw [List.isChain_append_cons_cons] at hchain
  obtain ⟨hA, hcd, hB⟩ := hchain
  have hsplit : A ++ c :: d :: B = (A ++ [c]) ++ d :: B := by simp
  rw [hsplit, keys_append] at hn ht
  obtain ⟨-, hnB, hdisj⟩ := List.nodup_append.mp hn
  have hdA : d.1 ∉ keys (A ++ [c]) := fun hm => hdisj _ hm _ (by simp) rfl
  have hdB : d.1 ∉ keys B := (List.nodup_cons.mp hnB).1
  have htA : t ∉ keys (A ++ [c]) := fun hm => ht (List.mem_append_left _ hm)
  have htd : t ≠ d.1 := by rintro rfl; simp at ht
  have htB : t ∉ keys B := fun hm => ht (by simp [hm])
  have hkeepA : ∀ e ∈ A ++ [c], Function.update (Function.update v t (c.2 - p)) d.1
      (v d.1 - (c.2 - p)) e.1 = v e.1 := by
    intro e he
    rw [update_of_not_mem hdA e he, update_of_not_mem htA e he]
  refine ⟨fun e he => ?_, ?_⟩
  · have hfirst : (A ++ [c]).head? = some e := by
      have hs : A ++ c :: (t, p) :: d :: B = (A ++ [c]) ++ (t, p) :: d :: B := by simp
      rwa [hs, List.head?_append_of_ne_nil _ (by simp)] at he
    rw [hkeepA e (List.mem_of_mem_head? hfirst)]
    refine hhead e ?_
    rw [hsplit, List.head?_append_of_ne_nil _ (by simp), hfirst]
  · rw [List.isChain_append_cons_cons, List.isChain_cons_cons]
    refine ⟨chain_congr (fun e he => hkeepA e (List.mem_of_mem_tail he)) hA, ?_, ?_, ?_⟩
    · simp [htd]
    · simp only [Function.update_self, hcd]
      omega
    · refine chain_congr (fun e he => ?_) hB
      rw [update_of_not_mem hdB e he, update_of_not_mem htB e he]

/-- The first entry is taken out: the next one stores its own priority again. -/
theorem Encodes.tail {v : α → ℤ} {e d : α × ℤ} {l : List (α × ℤ)}
    (h : Encodes v (e :: d :: l)) (hn : (keys (e :: d :: l)).Nodup) :
    Encodes (Function.update v d.1 (v e.1 - v d.1)) (d :: l) := by
  obtain ⟨he, hd, hl⟩ := encodes_cons_cons.mp h
  have hdl : d.1 ∉ keys l := (List.nodup_cons.mp (List.nodup_cons.mp hn).2).1
  refine ⟨fun a ha => ?_, chain_congr (update_of_not_mem hdl) hl⟩
  obtain rfl : d = a := by simpa using ha
  simp only [Function.update_self, he, hd]
  omega

/-- An entry behind `c` is taken out: the entry behind it takes over its
    distance. -/
theorem Encodes.remove_middle {v : α → ℤ} {c e d : α × ℤ} {A B : List (α × ℤ)}
    (h : Encodes v (A ++ c :: e :: d :: B)) (hn : (keys (A ++ c :: e :: d :: B)).Nodup) :
    Encodes (Function.update v d.1 (v d.1 + v e.1)) (A ++ c :: d :: B) := by
  obtain ⟨hhead, hchain⟩ := h
  rw [List.isChain_append_cons_cons, List.isChain_cons_cons] at hchain
  obtain ⟨hA, hce, hed, hB⟩ := hchain
  have hsplit : A ++ c :: e :: d :: B = (A ++ [c]) ++ (e :: d :: B) := by simp
  rw [hsplit, keys_append] at hn
  obtain ⟨-, hnB, hdisj⟩ := List.nodup_append.mp hn
  have hdA : d.1 ∉ keys (A ++ [c]) := fun hm => hdisj _ hm _ (by simp) rfl
  have hdB : d.1 ∉ keys B := (List.nodup_cons.mp (List.nodup_cons.mp hnB).2).1
  refine ⟨fun a ha => ?_, ?_⟩
  · have hfirst : (A ++ [c]).head? = some a := by
      have hs : A ++ c :: d :: B = (A ++ [c]) ++ d :: B := by simp
      rwa [hs, List.head?_append_of_ne_nil _ (by simp)] at ha
    rw [update_of_not_mem hdA a (List.mem_of_mem_head? hfirst)]
    refine hhead a ?_
    rw [hsplit, List.head?_append_of_ne_nil _ (by simp), hfirst]
  · rw [List.isChain_append_cons_cons]
    refine ⟨chain_congr (fun a ha => update_of_not_mem hdA a (List.mem_of_mem_tail ha)) hA,
      ?_, chain_congr (update_of_not_mem hdB) hB⟩
    simp only [Function.update_self, hce, hed]
    omega

/-- Raising what the first entry stores raises every priority. -/
theorem Encodes.increase {v : α → ℤ} {e : α × ℤ} {l : List (α × ℤ)}
    (h : Encodes v (e :: l)) (hn : (keys (e :: l)).Nodup) :
    Encodes (Function.update v e.1 (v e.1 + 1)) (PrioList.increase (e :: l)) := by
  have hel : e.1 ∉ keys l := (List.nodup_cons.mp hn).1
  refine ⟨fun a ha => ?_, ?_⟩
  · have hfirst : (e.1, e.2 + 1) = a := by simpa [PrioList.increase] using ha
    subst hfirst
    simp [h.1 e rfl]
  · refine (List.isChain_map _).mpr ?_
    have hkeep : ∀ a ∈ (e :: l).tail, Function.update v e.1 (v e.1 + 1) a.1 = v a.1 :=
      update_of_not_mem hel
    refine (chain_congr hkeep h.2).imp ?_
    intro a b hab
    simp only [hab]
    omega

end PrioList
