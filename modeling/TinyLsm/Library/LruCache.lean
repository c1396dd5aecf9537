import Mathlib.Algebra.Order.BigOperators.Group.List
import Mathlib.Algebra.Order.Ring.Nat
import Mathlib.Data.List.Nodup

/-!
# Least recently used cache

A cache of charged values under a capacity. A key that is present is never overwritten, and a value
that does not fit evicts from the end of the list.
-/

/-- A cached value. -/
structure LruEntry (κ ν : Type*) where
  key : κ
  value : ν
  charge : ℕ

namespace LruEntry

variable {κ ν : Type*}

/-- The charge of all entries. -/
def total (es : List (LruEntry κ ν)) : ℕ := (es.map charge).sum

theorem total_le_of_sublist {es es' : List (LruEntry κ ν)} (h : es.Sublist es') :
    total es ≤ total es' :=
  (h.map charge).sum_le_sum (by simp)

theorem total_perm {es es' : List (LruEntry κ ν)} (h : es.Perm es') : total es = total es' :=
  (h.map charge).sum_eq

/-- Drop entries until `charge` more fits, the first entry of the list first. -/
def evict (capacity charge : ℕ) : List (LruEntry κ ν) → List (LruEntry κ ν)
  | [] => []
  | e :: es => if capacity - total (e :: es) < charge then evict capacity charge es else e :: es

theorem evict_sublist (capacity charge : ℕ) (es : List (LruEntry κ ν)) :
    (evict capacity charge es).Sublist es := by
  induction es with
  | nil => exact .slnil
  | cons e es ih =>
    unfold evict
    split
    · exact ih.cons e
    · exact List.Sublist.refl _

theorem evict_fits {capacity charge : ℕ} (h : charge ≤ capacity) :
    ∀ es : List (LruEntry κ ν), total es ≤ capacity →
      total (evict capacity charge es) + charge ≤ capacity
  | [], _ => by simpa [evict, total] using h
  | e :: es, hle => by
    unfold evict
    split
    · exact evict_fits h es ((total_le_of_sublist (List.sublist_cons_self e es)).trans hle)
    · omega

/-- Eviction takes entries off the front, and no more than needed. -/
theorem evict_minimal {capacity charge : ℕ} :
    ∀ es : List (LruEntry κ ν), total es ≤ capacity →
      ∃ evicted, es = evicted ++ evict capacity charge es ∧
        ∀ last ∈ evicted.getLast?, capacity < total (last :: evict capacity charge es) + charge
  | [], _ => ⟨[], rfl, by simp⟩
  | e :: es, hle => by
    unfold evict
    split
    · rename_i hfull
      obtain ⟨evicted, heq, hlast⟩ := @evict_minimal capacity charge es
        ((total_le_of_sublist (List.sublist_cons_self e es)).trans hle)
      refine ⟨e :: evicted, congrArg (e :: ·) heq, fun last hmem => ?_⟩
      cases evicted with
      | nil =>
        obtain rfl : e = last := by simpa using hmem
        rw [List.nil_append] at heq
        rw [← heq]
        omega
      | cons a evicted => exact hlast last (by simpa using hmem)
    · exact ⟨[], rfl, by simp⟩

end LruEntry

/-- The entries, the most recently used first. -/
@[ext]
structure LruCache (κ ν : Type*) where
  capacity : ℕ
  entries : List (LruEntry κ ν)
  keys_nodup : (entries.map LruEntry.key).Nodup
  fits : LruEntry.total entries ≤ capacity

namespace LruCache

variable {κ ν : Type*} [DecidableEq κ]

/-- A cache without entries. -/
def empty (capacity : ℕ) : LruCache κ ν := ⟨capacity, [], .nil, Nat.zero_le _⟩

theorem perm_of_find? {es : List (LruEntry κ ν)} {k : κ} {e : LruEntry κ ν}
    (h : es.find? (·.key = k) = some e) : (e :: es.eraseP (·.key = k)).Perm es := by
  obtain ⟨he, before, after, rfl, hbefore⟩ := List.find?_eq_some_iff_append.mp h
  have herase : (e :: after).eraseP (·.key = k) = after := List.eraseP_cons_of_pos he
  rw [List.eraseP_append_right _ fun a ha => by simpa using hbefore a ha, herase]
  exact List.perm_middle.symm

/-- The entry of a key becomes the most recently used one. -/
def touch (c : LruCache κ ν) (k : κ) (e : LruEntry κ ν)
    (h : c.entries.find? (·.key = k) = some e) : LruCache κ ν where
  capacity := c.capacity
  entries := e :: c.entries.eraseP (·.key = k)
  keys_nodup := ((perm_of_find? h).map LruEntry.key).nodup_iff.mpr c.keys_nodup
  fits := (LruEntry.total_perm (perm_of_find? h)).trans_le c.fits

/-- The value of a key, which becomes the most recently used one. -/
def lookup (c : LruCache κ ν) (k : κ) : Option (ν × LruCache κ ν) :=
  match h : c.entries.find? (·.key = k) with
  | none => none
  | some e => some (e.value, c.touch k e h)

/-- Put a value in front, behind evictions that make room for it. -/
def push (c : LruCache κ ν) (k : κ) (v : ν) (charge : ℕ) (hfits : charge ≤ c.capacity)
    (hnew : c.entries.find? (·.key = k) = none) : LruCache κ ν where
  capacity := c.capacity
  entries := ⟨k, v, charge⟩ :: (LruEntry.evict c.capacity charge c.entries.reverse).reverse
  keys_nodup := by
    have hsub : (LruEntry.evict c.capacity charge c.entries.reverse).reverse.Sublist c.entries := by
      simpa using (LruEntry.evict_sublist c.capacity charge c.entries.reverse).reverse
    refine List.nodup_cons.mpr ⟨fun hmem => ?_, c.keys_nodup.sublist (hsub.map _)⟩
    obtain ⟨e, he, hkey⟩ := List.mem_map.mp hmem
    have := List.find?_eq_none.mp hnew e (hsub.subset he)
    exact this (by simpa using hkey)
  fits := by
    have := LruEntry.evict_fits hfits c.entries.reverse
      ((LruEntry.total_perm (List.reverse_perm _)).trans_le c.fits)
    have hrev := LruEntry.total_perm
      (List.reverse_perm (LruEntry.evict c.capacity charge c.entries.reverse))
    simp only [LruEntry.total, List.map_cons, List.sum_cons] at this hrev ⊢
    omega

/-- Insert a value. A value above the capacity is refused, and a present key keeps its value. -/
def insert (c : LruCache κ ν) (k : κ) (v : ν) (charge : ℕ) : LruCache κ ν :=
  if hfits : charge ≤ c.capacity then
    match h : c.entries.find? (·.key = k) with
    | some e => c.touch k e h
    | none => c.push k v charge hfits h
  else c

/-- Drop the entries whose key satisfies `p`. -/
def eraseWhere (c : LruCache κ ν) (p : κ → Bool) : LruCache κ ν where
  capacity := c.capacity
  entries := c.entries.filter fun e => !p e.key
  keys_nodup := c.keys_nodup.sublist (List.filter_sublist.map _)
  fits := (LruEntry.total_le_of_sublist List.filter_sublist).trans c.fits

variable {c c' : LruCache κ ν} {k : κ} {v : ν} {charge : ℕ}

theorem mem_touch {e : LruEntry κ ν} {h : c.entries.find? (·.key = k) = some e}
    {a : LruEntry κ ν} : a ∈ (c.touch k e h).entries ↔ a ∈ c.entries :=
  (perm_of_find? h).mem_iff

theorem lookup_of_some {e : LruEntry κ ν} (h : c.entries.find? (·.key = k) = some e) :
    c.lookup k = some (e.value, c.touch k e h) := by
  unfold lookup
  split
  · rename_i hnone
    rw [h] at hnone
    cases hnone
  · rename_i e' he'
    obtain rfl : e = e' := Option.some.inj (h.symm.trans he')
    rfl

theorem lookup_of_none (h : c.entries.find? (·.key = k) = none) : c.lookup k = none := by
  unfold lookup
  split
  · rfl
  · rename_i e he
    rw [h] at he
    cases he

/-- A value that was put in front is found. -/
theorem exists_lookup_push (hfits : charge ≤ c.capacity)
    (hnew : c.entries.find? (·.key = k) = none) :
    ∃ c', (c.push k v charge hfits hnew).lookup k = some (v, c') :=
  ⟨_, lookup_of_some (e := ⟨k, v, charge⟩) (by simp [push])⟩

theorem insert_of_some {e : LruEntry κ ν} (hfits : charge ≤ c.capacity)
    (h : c.entries.find? (·.key = k) = some e) : c.insert k v charge = c.touch k e h := by
  unfold insert
  rw [dif_pos hfits]
  split
  · rename_i e' he'
    obtain rfl : e = e' := Option.some.inj (h.symm.trans he')
    rfl
  · rename_i hnone
    rw [h] at hnone
    cases hnone

theorem insert_of_none (hfits : charge ≤ c.capacity) (h : c.entries.find? (·.key = k) = none) :
    c.insert k v charge = c.push k v charge hfits h := by
  unfold insert
  rw [dif_pos hfits]
  split
  · rename_i e he
    rw [h] at he
    cases he
  · rfl

/-- A hit returns the value of an entry, and the entries stay. -/
theorem lookup_eq_some (h : c.lookup k = some (v, c')) :
    (∃ e ∈ c.entries, e.key = k ∧ e.value = v) ∧ ∀ a, a ∈ c'.entries ↔ a ∈ c.entries := by
  unfold lookup at h
  split at h
  · cases h
  · rename_i e he
    obtain ⟨rfl, rfl⟩ := Prod.mk.inj (Option.some.inj h)
    exact ⟨⟨e, List.mem_of_find?_eq_some he, by simpa using List.find?_some he, rfl⟩,
      fun a => mem_touch⟩

/-- An entry behind an insertion was there before or is the inserted one. -/
theorem mem_insert {a : LruEntry κ ν} (h : a ∈ (c.insert k v charge).entries) :
    a ∈ c.entries ∨ a = ⟨k, v, charge⟩ := by
  unfold insert at h
  split at h
  · split at h
    · exact .inl (mem_touch.mp h)
    · rcases List.mem_cons.mp h with rfl | h
      · exact .inr rfl
      · have := (LruEntry.evict_sublist c.capacity charge c.entries.reverse).subset
          (List.mem_reverse.mp h)
        exact .inl (List.mem_reverse.mp this)
  · exact .inl h

omit [DecidableEq κ] in
theorem mem_eraseWhere {p : κ → Bool} {a : LruEntry κ ν} :
    a ∈ (c.eraseWhere p).entries ↔ a ∈ c.entries ∧ p a.key = false := by
  simp [eraseWhere]

end LruCache
