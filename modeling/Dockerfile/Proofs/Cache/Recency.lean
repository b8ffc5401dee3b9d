import Mathlib.Data.Finset.Card
import Dockerfile.Cache

/-!
# What a cache of recent results holds

Which results are kept can be told from the keys that were asked for: put in the order of their last
use, the latest first, they are the keys of the cache as far as its capacity goes. Next to each key
stands what is computed from it, whether it was computed just now or long ago.

* `Reflects.fetch` — a key that is asked for, found or not, keeps this true
* `mem_take_recency_iff` — a key is kept if few other keys were asked for since
-/

namespace Dockerfile

variable {κ ν : Type}

/-! ## The order of use -/

/-- A key that came up came up for a last time. -/
theorem exists_last_use {k : κ} {keys : List κ} (h : k ∈ keys) :
    ∃ before since, keys = before ++ k :: since ∧ k ∉ since := by
  obtain ⟨since, before, hkeys, hk⟩ := List.eq_append_cons_of_mem (List.mem_reverse.mpr h)
  refine ⟨before.reverse, since.reverse, ?_, fun hmem => hk (List.mem_reverse.mp hmem)⟩
  rw [← keys.reverse_reverse, hkeys]
  simp

variable [DecidableEq κ]

/-- The keys in the order of their last use, the latest first. -/
def recency (keys : List κ) : List κ := keys.dedup.reverse

@[simp]
theorem mem_recency {k : κ} {keys : List κ} : k ∈ recency keys ↔ k ∈ keys := by
  simp [recency]

theorem nodup_recency (keys : List κ) : (recency keys).Nodup :=
  List.nodup_reverse.mpr keys.nodup_dedup

theorem length_recency (keys : List κ) : (recency keys).length = keys.toFinset.card := by
  rw [recency, List.length_reverse, List.card_toFinset]

/-- In front of a key stand the keys that were asked for since. -/
theorem recency_since {k : κ} {since : List κ} (hk : k ∉ since) (before : List κ) :
    ∃ older, recency (before ++ k :: since) = recency since ++ k :: older := by
  obtain ⟨older, holder⟩ : (k :: since.dedup) <:+ (before ++ k :: since).dedup := by
    rw [List.dedup_append, List.dedup_cons_of_notMem hk]
    exact List.suffix_union_right ..
  refine ⟨older.reverse, ?_⟩
  rw [recency, ← holder, recency]
  simp

/-- A key is among the latest if few other keys came up since its last use. -/
theorem mem_take_recency_append {k : κ} {before since : List κ} {n : Nat} (hk : k ∉ since) :
    k ∈ (recency (before ++ k :: since)).take n ↔ since.toFinset.card < n := by
  obtain ⟨older, holder⟩ := recency_since hk before
  have hmem : k ∉ (recency since).take n := fun h => hk (mem_recency.mp (List.mem_of_mem_take h))
  rw [holder, ← length_recency, List.take_append, List.mem_append, or_iff_right hmem]
  cases hn : n - (recency since).length with
  | zero => exact ⟨nofun, fun h => absurd h (by omega)⟩
  | succ m => exact ⟨fun _ => by omega, fun _ => List.mem_cons_self⟩

/-- The key came up before, and fewer than `n` other keys came up since it did so last. -/
def CameUpLately (n : Nat) (keys : List κ) (k : κ) : Prop :=
  ∃ before since, keys = before ++ k :: since ∧ k ∉ since ∧ since.toFinset.card < n

/-- **The latest keys** are those that came up lately. -/
theorem mem_take_recency_iff {k : κ} {keys : List κ} {n : Nat} :
    k ∈ (recency keys).take n ↔ CameUpLately n keys k := by
  constructor
  · intro h
    obtain ⟨before, since, rfl, hk⟩ := exists_last_use (mem_recency.mp (List.mem_of_mem_take h))
    exact ⟨before, since, rfl, hk, (mem_take_recency_append hk).mp h⟩
  · rintro ⟨before, since, rfl, hk, hlen⟩
    exact (mem_take_recency_append hk).mpr hlen

/-! ## The latest keys when another one comes up -/

section Front

variable [BEq κ] [LawfulBEq κ]

/-- The last key is the only one that can be a duplicate of one before. -/
theorem dedup_concat (keys : List κ) (k : κ) :
    (keys ++ [k]).dedup = keys.dedup.filter (!· == k) ++ [k] := by
  induction keys with
  | nil => rfl
  | cons x keys ih =>
    rw [List.cons_append]
    by_cases hmem : x ∈ keys
    · rw [List.dedup_cons_of_mem (List.mem_append_left _ hmem), List.dedup_cons_of_mem hmem, ih]
    rw [List.dedup_cons_of_notMem hmem]
    by_cases hx : x = k
    · rw [List.dedup_cons_of_mem (by simp [hx]), ih, List.filter_cons_of_neg (by simp [hx])]
    · rw [List.dedup_cons_of_notMem (by simp [hmem, hx]), ih,
        List.filter_cons_of_pos (by simp [hx]), List.cons_append]

/-- **A key that is asked for comes to the front**; the others keep their order. -/
theorem recency_concat (keys : List κ) (k : κ) :
    recency (keys ++ [k]) = k :: (recency keys).filter (!· == k) := by
  simp [recency, dedup_concat]

omit [DecidableEq κ]

/-- A key that is among the latest makes room for itself. -/
theorem take_filter_of_mem {k : κ} {l : List κ} {n : Nat} (hl : l.Nodup)
    (h : k ∈ l.take (n + 1)) :
    (l.filter (!· == k)).take n = (l.take (n + 1)).filter (!· == k) := by
  induction l generalizing n with
  | nil => cases h
  | cons x l ih =>
    obtain ⟨hx, hl⟩ := List.nodup_cons.mp hl
    rw [List.take_succ_cons] at h ⊢
    by_cases hxk : x = k
    · subst hxk
      have hfilter {m : List κ} (hm : x ∉ m) : m.filter (!· == x) = m :=
        List.filter_eq_self.mpr fun y hy => by simpa using fun (h : y = x) => hm (h ▸ hy)
      rw [List.filter_cons_of_neg (by simp), List.filter_cons_of_neg (by simp), hfilter hx,
        hfilter fun h => hx (List.mem_of_mem_take h)]
    · rw [List.filter_cons_of_pos (by simp [hxk]), List.filter_cons_of_pos (by simp [hxk])]
      cases n with
      | zero => exact absurd (List.mem_singleton.mp h).symm hxk
      | succ n =>
        rw [List.take_succ_cons, ih hl ((List.mem_cons.mp h).resolve_left (Ne.symm hxk))]

/-- Another key pushes the last one out. -/
theorem take_filter_of_notMem {k : κ} {l : List κ} {n : Nat} (h : k ∉ l.take n) :
    (l.filter (!· == k)).take n = l.take n := by
  induction l generalizing n with
  | nil => rfl
  | cons x l ih =>
    cases n with
    | zero => rfl
    | succ n =>
      rw [List.take_succ_cons, List.mem_cons, not_or] at h
      rw [List.filter_cons_of_pos (by simpa using Ne.symm h.1), List.take_succ_cons,
        List.take_succ_cons, ih h.2]

end Front

/-! ## What is kept -/

namespace RecentCache

variable {c : RecentCache κ ν} {n : Nat} {compute : κ → ν} {keys : List κ}

/-- A cache for `n` results after the given keys were asked for. -/
structure Reflects (c : RecentCache κ ν) (n : Nat) (compute : κ → ν) (keys : List κ) : Prop where
  capacity : c.capacity = n
  /-- The latest keys are kept, each with its result. -/
  entries : c.entries = ((recency keys).take n).map fun k => (k, compute k)
  /-- Every key was found or not. -/
  counted : c.hits + c.misses = keys.length

theorem reflects_empty (n : Nat) (compute : κ → ν) : (empty n).Reflects n compute [] :=
  ⟨rfl, by simp [empty, recency], rfl⟩

/-- **As many results are kept** as there is room for, or else one for every key. -/
theorem Reflects.size (h : c.Reflects n compute keys) : c.size = min n keys.toFinset.card := by
  rw [RecentCache.size, h.entries, List.length_map, List.length_take, length_recency]

variable [BEq κ] [LawfulBEq κ]

omit [DecidableEq κ] in
/-- In a list of results, a key is looked up to its result. -/
theorem lookup_results (compute : κ → ν) (keys : List κ) (k : κ) :
    (keys.map fun k => (k, compute k)).lookup k = if k ∈ keys then some (compute k) else none := by
  induction keys with
  | nil => rfl
  | cons x keys ih =>
    rw [List.map_cons, List.lookup_cons, ih]
    by_cases hx : k = x
    · simp [hx]
    · simp [hx, beq_false_of_ne hx]

namespace Reflects

theorem lookup (h : c.Reflects n compute keys) (k : κ) :
    c.entries.lookup k = if k ∈ (recency keys).take n then some (compute k) else none := by
  rw [h.entries, lookup_results]

/-- The result is the one that would be computed. -/
theorem fetch_fst (h : c.Reflects n compute keys) (k : κ) :
    (c.fetch compute k).1 = compute k := by
  rw [fetch, h.lookup]
  split_ifs <;> rfl

/-- A key that is kept is a hit. -/
theorem fetch_of_mem (h : c.Reflects n compute keys) {k : κ} (hk : k ∈ (recency keys).take n) :
    (c.fetch compute k).2 = { c with
      entries := (k, compute k) :: c.entries.filter fun e => !(e.1 == k), hits := c.hits + 1 } := by
  rw [fetch, h.lookup, if_pos hk]

/-- A key that is not kept is a miss. -/
theorem fetch_of_notMem (h : c.Reflects n compute keys) {k : κ}
    (hk : k ∉ (recency keys).take n) :
    (c.fetch compute k).2 = { c with
      entries := ((k, compute k) :: c.entries).take c.capacity, misses := c.misses + 1 } := by
  rw [fetch, h.lookup, if_neg hk]

/-- **A key that is asked for** is one more that the cache reflects. -/
theorem fetch (h : c.Reflects n compute keys) (k : κ) :
    (c.fetch compute k).2.Reflects n compute (keys ++ [k]) := by
  have hcounted : (keys ++ [k]).length = keys.length + 1 := List.length_append
  have hsum := h.counted
  by_cases hk : k ∈ (recency keys).take n
  · rw [h.fetch_of_mem hk]
    refine ⟨h.capacity, ?_, by simp only; omega⟩
    cases n with
    | zero => cases hk
    | succ n =>
      rw [recency_concat, List.take_succ_cons, take_filter_of_mem (nodup_recency _) hk, h.entries,
        List.filter_map]
      rfl
  · rw [h.fetch_of_notMem hk]
    refine ⟨h.capacity, ?_, by simp only; omega⟩
    simp only
    rw [h.capacity, h.entries, recency_concat]
    cases n with
    | zero => rfl
    | succ n =>
      have hk' : k ∉ (recency keys).take n :=
        fun hmem => hk (List.take_subset_take_left _ (Nat.le_succ n) hmem)
      rw [List.take_succ_cons, List.take_succ_cons, take_filter_of_notMem hk', ← List.map_take,
        List.take_take, Nat.min_eq_left (Nat.le_succ n), List.map_cons]

/-- **A hit is counted** exactly for the keys that came up lately. -/
theorem hits_fetch_iff (h : c.Reflects n compute keys) {k : κ} :
    (c.fetch compute k).2.hits = c.hits + 1 ↔ CameUpLately n keys k := by
  rw [← mem_take_recency_iff]
  by_cases hk : k ∈ (recency keys).take n
  · rw [h.fetch_of_mem hk]
    exact iff_of_true rfl hk
  · rw [h.fetch_of_notMem hk]
    exact iff_of_false (by simp) hk

/-- **A miss is counted** exactly for the other keys. -/
theorem misses_fetch_iff (h : c.Reflects n compute keys) {k : κ} :
    (c.fetch compute k).2.misses = c.misses + 1 ↔ ¬ CameUpLately n keys k := by
  rw [← mem_take_recency_iff]
  by_cases hk : k ∈ (recency keys).take n
  · rw [h.fetch_of_mem hk]
    exact iff_of_false (by simp) (not_not_intro hk)
  · rw [h.fetch_of_notMem hk]
    exact iff_of_true rfl hk

end Reflects

end RecentCache

end Dockerfile
