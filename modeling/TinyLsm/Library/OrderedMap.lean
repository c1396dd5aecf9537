import Mathlib.Order.Lattice
import Mathlib.Order.Defs.LinearOrder
import Mathlib.Data.List.Basic

/-!
# Ordered maps as sorted association lists

`find` and `set` on a list of key-value pairs with strictly increasing keys, and the lemmas that
describe a map by what `find` returns.
-/

namespace OrderedMap

variable {K V : Type*} [LinearOrder K]

/-- The value stored for a key. -/
def find : List (K × V) → K → Option V
  | [], _ => none
  | (a, v) :: m, k => if a = k then some v else find m k

/-- Store a value for a key: replace the old one or insert it in key order. -/
def set : List (K × V) → K → V → List (K × V)
  | [], k, v => [(k, v)]
  | (a, w) :: m, k, v =>
    if k < a then (k, v) :: (a, w) :: m else if a = k then (k, v) :: m else (a, w) :: set m k v

/-- The keys increase strictly. -/
def Sorted (m : List (K × V)) : Prop := m.Pairwise fun a b => a.1 < b.1

@[simp] theorem find_nil (k : K) : find ([] : List (K × V)) k = none := rfl

theorem find_mem {m : List (K × V)} {k : K} {v : V} (h : find m k = some v) : (k, v) ∈ m := by
  induction m with
  | nil => cases h
  | cons p m ih =>
    obtain ⟨a, w⟩ := p
    simp only [find] at h
    split at h
    · rename_i hak
      obtain rfl := Option.some.inj h
      rw [hak]
      exact List.mem_cons_self
    · exact List.mem_cons_of_mem _ (ih h)

theorem Sorted.find_eq_some_iff {m : List (K × V)} (hm : Sorted m) {k : K} {v : V} :
    find m k = some v ↔ (k, v) ∈ m := by
  refine ⟨find_mem, fun h => ?_⟩
  induction m with
  | nil => cases h
  | cons p m ih =>
    obtain ⟨a, w⟩ := p
    obtain ⟨hlt, hm'⟩ := List.pairwise_cons.mp hm
    simp only [find]
    rcases List.mem_cons.mp h with heq | hmem
    · simp only [Prod.mk.injEq] at heq
      rw [if_pos heq.1.symm, heq.2]
    · rw [if_neg (hlt _ hmem).ne]
      exact ih hm' hmem

/-- A sorted map is determined by what `find` returns. -/
theorem Sorted.ext {m m' : List (K × V)} (hm : Sorted m) (hm' : Sorted m')
    (h : ∀ k, find m k = find m' k) : m = m' := by
  have hnodup : ∀ {l : List (K × V)}, Sorted l → l.Nodup := fun hl =>
    List.Pairwise.imp (fun hlt heq => hlt.ne (congrArg Prod.fst heq)) hl
  have hperm : m.Perm m' := by
    rw [List.perm_ext_iff_of_nodup (hnodup hm) (hnodup hm')]
    rintro ⟨k, v⟩
    rw [← hm.find_eq_some_iff, ← hm'.find_eq_some_iff, h]
  refine hperm.eq_of_pairwise (fun a b _ _ hab hba => ?_) hm hm'
  exact absurd (hab.trans hba) (lt_irrefl _)

theorem mem_set {m : List (K × V)} {k : K} {v : V} {p : K × V} (h : p ∈ set m k v) :
    p = (k, v) ∨ p ∈ m := by
  induction m with
  | nil => simpa [set] using h
  | cons q m ih =>
    obtain ⟨a, w⟩ := q
    simp only [set] at h
    split at h
    · rcases List.mem_cons.mp h with h | h
      · exact .inl h
      · exact .inr h
    · split at h
      · rcases List.mem_cons.mp h with h | h
        · exact .inl h
        · exact .inr (List.mem_cons_of_mem _ h)
      · rcases List.mem_cons.mp h with h | h
        · exact .inr (by rw [h]; exact List.mem_cons_self)
        · rcases ih h with h | h
          · exact .inl h
          · exact .inr (List.mem_cons_of_mem _ h)

theorem Sorted.set {m : List (K × V)} (hm : Sorted m) (k : K) (v : V) : Sorted (set m k v) := by
  induction m with
  | nil => exact List.pairwise_singleton _ _
  | cons q m ih =>
    obtain ⟨a, w⟩ := q
    obtain ⟨hlt, hm'⟩ := List.pairwise_cons.mp hm
    simp only [OrderedMap.set]
    split
    · rename_i hka
      refine List.Pairwise.cons (fun p hp => ?_) hm
      rcases List.mem_cons.mp hp with rfl | hp
      · exact hka
      · exact hka.trans (hlt p hp)
    · rename_i hka
      split
      · rename_i hak
        subst hak
        exact List.Pairwise.cons hlt hm'
      · rename_i hak
        refine List.Pairwise.cons (fun p hp => ?_) (ih hm')
        rcases mem_set hp with rfl | hp
        · exact lt_of_le_of_ne (not_lt.mp hka) hak
        · exact hlt p hp

theorem find_set (m : List (K × V)) (k k' : K) (v : V) :
    find (set m k v) k' = if k = k' then some v else find m k' := by
  induction m with
  | nil => simp [set, find]
  | cons q m ih =>
    obtain ⟨a, w⟩ := q
    simp only [set]
    split
    · simp [find]
    · split
      · rename_i hak
        subst hak
        simp only [find]
        split <;> simp_all
      · rename_i hak
        simp only [find, ih]
        by_cases h : k = k'
        · subst h
          simp [hak]
        · simp [h]

/-- Remove a key. -/
def erase (m : List (K × V)) (k : K) : List (K × V) := m.filter fun p => decide (p.1 ≠ k)

theorem Sorted.erase {m : List (K × V)} (hm : Sorted m) (k : K) : Sorted (erase m k) :=
  List.Pairwise.filter _ hm

theorem find_erase (m : List (K × V)) (k k' : K) :
    find (erase m k) k' = if k = k' then none else find m k' := by
  induction m with
  | nil => simp [erase]
  | cons p m ih =>
    obtain ⟨a, v⟩ := p
    rw [erase] at ih ⊢
    by_cases hak : a = k
    · subst hak
      rw [List.filter_cons_of_neg (by simp), ih]
      simp only [find]
      split <;> rfl
    · rw [List.filter_cons_of_pos (by simpa using hak)]
      simp only [find, ih]
      by_cases hk : k = k'
      · subst hk
        simp [hak]
      · simp [hk]

/-- Store several values in order. -/
def setAll (m : List (K × V)) (ps : List (K × V)) : List (K × V) :=
  ps.foldl (fun m p => set m p.1 p.2) m

theorem Sorted.setAll {m : List (K × V)} (hm : Sorted m) (ps : List (K × V)) :
    Sorted (setAll m ps) := by
  induction ps generalizing m with
  | nil => exact hm
  | cons p ps ih => exact ih (hm.set p.1 p.2)

/-- With distinct keys, the stored values win over the old map. -/
theorem find_setAll (m : List (K × V)) {ps : List (K × V)} (hps : Sorted ps) (k : K) :
    find (setAll m ps) k = (find ps k).or (find m k) := by
  induction ps generalizing m with
  | nil => simp [setAll]
  | cons p ps ih =>
    obtain ⟨a, v⟩ := p
    obtain ⟨hlt, hps'⟩ := List.pairwise_cons.mp hps
    have hrec := ih (set m a v) hps'
    simp only [setAll, List.foldl_cons] at hrec ⊢
    rw [hrec, find_set]
    simp only [find]
    by_cases h : a = k
    · subst h
      have hnone : find ps a = none := by
        cases hf : find ps a with
        | none => rfl
        | some w => exact absurd (hlt _ (find_mem hf)) (lt_irrefl _)
      simp [hnone]
    · simp [h]

end OrderedMap
