import TinyLsm.Iterator.MergeExact
import TinyLsm.Iterator.VisibilityIterator

/-!
# Visibility filtering is exact

What `VisibilityIterator` yields when its input fails somewhere: the visible entries of what the
input got through, and then the error of the input, which stays. Only an input that has failed before
it is handed over is taken for one without entries.
-/

namespace TinyLsm

namespace InternalIterator

variable {ι : Type} [InternalIterator ι]

/-- The iterator gets through the list, and then ends, or fails where `failure` says so. One that has
failed already gets through no entry. -/
def Walks : ι → List InternalEntry → Option Status → Prop
  | it, [], failure => entry? it = none ∧
    failure = if (status it).ok then none else some (status it)
  | it, e :: es, failure => entry? it = some e ∧ (status it).ok = true ∧
    es.length < remaining it ∧
    match moved (next it) with
    | .ok it' => Walks it' es failure
    | .error s => es = [] ∧ failure = some s

variable {it : ι} {es : List InternalEntry} {failure : Option Status}

theorem Walks.entry? (h : Walks it es failure) : entry? it = es.head? := by
  cases es with
  | nil => exact h.1
  | cons e es => exact h.1

theorem Walks.length_le (h : Walks it es failure) : es.length ≤ remaining it := by
  cases es with
  | nil => exact Nat.zero_le _
  | cons e es => exact h.2.2.1

/-- A move leads to the rest of the list or to the failure. -/
theorem Walks.next {e : InternalEntry} (h : Walks it (e :: es) failure) :
    (∃ it', moved (next it) = .ok it' ∧ (status it').ok = true ∧ Walks it' es failure) ∨
      ∃ s, moved (InternalIterator.next it) = .error s ∧ es = [] ∧ failure = some s := by
  obtain ⟨-, -, -, hmoved⟩ := h
  cases hresult : moved (InternalIterator.next it) with
  | ok it' =>
    rw [hresult] at hmoved
    exact .inl ⟨it', rfl, (moved_eq_ok hresult).2.2, hmoved⟩
  | error s =>
    rw [hresult] at hmoved
    exact .inr ⟨s, rfl, hmoved.1, hmoved.2⟩

theorem Walks.not_failed (h : Walks it [] failure) (hok : (status it).ok = true) :
    failure = none := by
  have hfailure := h.2
  rwa [if_pos hok] at hfailure

/-- An iterator that has failed is invalid. -/
theorem Walks.of_failed (h : Walks it es failure) (hfailed : ¬ (status it).ok = true) :
    failure = some (status it) ∧ InternalIterator.entry? it = none := by
  cases es with
  | nil => exact ⟨by rw [h.2, if_neg hfailed], h.1⟩
  | cons e es => exact absurd h.2.1 hfailed

theorem Yields.walks (h : Yields it es) : Walks it es none := by
  induction es generalizing it with
  | nil => exact ⟨h.1, by rw [if_pos h.2]⟩
  | cons e es ih =>
    obtain ⟨hentry, hok, hlen, it', hmoved, hrest⟩ := h
    refine ⟨hentry, hok, hlen, ?_⟩
    rw [hmoved]
    exact ih hrest

end InternalIterator

namespace VisibilityIterator

open InternalIterator

variable {ι : Type} [InternalIterator ι] {v : VisibilityIterator ι} {es : List InternalEntry}
  {failure : Option Status}

theorem movedProduces_setError {s : Status} (h : s.ok = false) :
    MovedProduces Stuck (v.setError s) [] (some s) := by
  have hmoved : moved (v.setError s) = .error s := by simp [moved, setError, h]
  have hstuck : Stuck (v.setError s).2 s :=
    { failed := h
      status_eq := rfl
      invalid := by
        show VisibilityIterator.entry? (v.setError s).2 = none
        simp [VisibilityIterator.entry?, setError]
      next_eq := by
        show VisibilityIterator.next (v.setError s).2 = _
        simp [VisibilityIterator.next, setError, h]
      seek_eq target := by
        show VisibilityIterator.seek (v.setError s).2 target = _
        simp [VisibilityIterator.seek, setError, h] }
  unfold MovedProduces
  rw [hmoved]
  exact ⟨rfl, rfl, hstuck⟩

theorem movedProduces_okay (h : v.status.ok = true) {out : List InternalEntry} :
    MovedProduces Stuck (Status.okay, v) out failure ↔ Produces Stuck v out failure := by
  have hstatus : (InternalIterator.status v).ok = true := h
  have hmoved : moved (Status.okay, v) = .ok v := by simp [moved, hstatus]
  unfold MovedProduces
  rw [hmoved]

/-- The loop of `Next` passes over the versions of the key, or meets the failure among them. -/
theorem skipKey_walks (key : Bytes) {fuel : ℕ} {input : ι}
    (hok : (InternalIterator.status input).ok = true) (h : Walks input es failure)
    (hfuel : es.length < fuel) :
    (∃ input', skipKey key fuel input = .ok input' ∧ (InternalIterator.status input').ok = true ∧
      Walks input' (es.dropWhile fun e => decide (e.userKey = key)) failure) ∨
    ∃ s, skipKey key fuel input = .error s ∧ s.ok = false ∧ failure = some s ∧
      es.dropWhile (fun e => decide (e.userKey = key)) = [] := by
  induction fuel generalizing input es with
  | zero => exact absurd hfuel (Nat.not_lt_zero _)
  | succ fuel ih =>
    have hentry := h.entry?
    cases es with
    | nil =>
      refine .inl ⟨input, ?_, hok, h⟩
      simp [skipKey, hentry]
    | cons e es =>
      have hfront : InternalIterator.entry? input = some e := hentry
      simp only [skipKey, hfront, List.dropWhile_cons]
      by_cases hkey : e.userKey = key
      · rw [if_pos hkey, if_pos (by simpa using hkey)]
        rcases h.next with ⟨input', hmoved, hok', hwalks⟩ | ⟨s, hmoved, rfl, hs⟩
        · rw [hmoved]
          exact ih hok' hwalks (by simpa using hfuel)
        · rw [hmoved]
          exact .inr ⟨s, rfl, moved_eq_error hmoved, hs, rfl⟩
      · rw [if_neg hkey, if_neg (by simpa using hkey)]
        exact .inl ⟨input, rfl, hok, h⟩

/-- From a position before the next visible entry the iterator produces the visible entries of what
its input walks through, and then the failure of the input. -/
theorem advanceToVisible_produces {fuel : ℕ} {context : Option (Bytes × Bool)}
    (hstatus : v.status.ok = true) (hvalid : v.valid = false)
    (hok : (InternalIterator.status v.input).ok = true) (h : Walks v.input es failure)
    (hfuel : es.length < fuel) :
    MovedProduces Stuck (advanceToVisible fuel context v) (visibleFrom v.sequence context es)
      failure := by
  -- the input only moves on: strong induction on what is left of it
  induction hn : es.length using Nat.strong_induction_on generalizing v es fuel context with
  | _ n ih =>
    subst hn
    obtain ⟨fuel, rfl⟩ := Nat.exists_eq_succ_of_ne_zero (Nat.ne_of_gt (Nat.zero_lt_of_lt hfuel))
    have hentry := h.entry?
    cases es with
    | nil =>
      rw [advanceToVisible, hentry, h.not_failed hok]
      refine (movedProduces_okay hstatus).mpr ⟨?_, hstatus, rfl⟩
      show VisibilityIterator.entry? v = none
      simp [VisibilityIterator.entry?, hvalid]
    | cons e es =>
      have hfront : InternalIterator.entry? v.input = some e := hentry
      simp only [advanceToVisible, hfront, visibleFrom]
      split
      · -- the iterator stands on `e`; its `Next` passes over the other versions of the key
        rename_i hshow
        simp only [Bool.and_eq_true, Bool.not_eq_true', decide_eq_true_eq] at hshow
        refine (movedProduces_okay (v := { v with valid := true }) hstatus).mpr
          (produces_cons.mpr ⟨?_, hstatus, ?_⟩)
        · show VisibilityIterator.entry? { v with valid := true } = some e
          simp [VisibilityIterator.entry?, hstatus, hfront]
        show MovedProduces Stuck (VisibilityIterator.next { v with valid := true }) _ failure
        rw [hshow.1.1, Bool.false_or, decide_eq_true hshow.1.2, Bool.not_false, Bool.true_and,
          visibleFrom_seen]
        have hskip := skipKey_walks e.userKey hok h (Nat.lt_succ_of_le h.length_le)
        rw [List.dropWhile_cons_of_pos (by simp)] at hskip
        rcases hskip with ⟨input, hinput, hok', hwalks⟩ | ⟨s, hs, hfail, rfl, hnil⟩
        · have hnext : VisibilityIterator.next { v with valid := true } =
              advance { v with input := input, valid := false } := by
            simp [VisibilityIterator.next, hstatus, hfront, hinput]
          rw [hnext]
          exact ih _ (Nat.lt_succ_of_le (List.length_dropWhile_le _ _))
            (v := { v with input := input, valid := false }) hstatus rfl hok' hwalks
            (Nat.lt_succ_of_le hwalks.length_le) rfl
        · have hnext : VisibilityIterator.next { v with valid := true } =
              setError { v with valid := true } s := by
            simp [VisibilityIterator.next, hstatus, hfront, hs]
          rw [hnext, hnil]
          exact movedProduces_setError hfail
      · rcases h.next with ⟨input, hmoved, hok', hwalks⟩ | ⟨s, hmoved, rfl, rfl⟩
        · rw [hmoved]
          exact ih _ (Nat.lt_succ_self _) (v := { v with input := input }) hstatus hvalid hok' hwalks
            (by simpa using hfuel) rfl
        · rw [hmoved]
          exact movedProduces_setError (moved_eq_error hmoved)

/-- What comes out of `NewVisibilityIterator`. It fails when the input fails before a visible
entry. -/
def Filtered (input : ι) (sequence : ℕ) (out : List InternalEntry) (failure : Option Status) :
    Prop :=
  match newVisibilityIterator input sequence with
  | .ok v => Produces Stuck v out failure
  | .error s => out = [] ∧ failure = some s

/-- The newest version of each key at the sequence where that is a value, in key order. -/
structure Visible (es : List InternalEntry) (sequence : ℕ) (out : List InternalEntry) : Prop where
  keys_increase : out.Pairwise fun a b => a.userKey < b.userKey
  mem_iff : ∀ e, e ∈ out ↔ IsNewest es e.userKey sequence e ∧ e.type = .value

theorem visible_visibleFrom (hord : Ordered es) (sequence : ℕ) :
    Visible es sequence (visibleFrom sequence none es) where
  keys_increase := visible_keys_increase hord
  mem_iff e := by rw [mem_visible hord, hord.findVersion_eq_some_iff]

/-- `NewVisibilityIterator` returns what `AdvanceToVisible` leads to. -/
theorem filtered_of_walks {input : ι} (hok : (InternalIterator.status input).ok = true)
    (h : Walks input es failure) (sequence : ℕ) :
    Filtered input sequence (visibleFrom sequence none es) failure := by
  let start : VisibilityIterator ι := ⟨input, sequence, false, .okay⟩
  have hproduces : MovedProduces Stuck (advanceToVisible (remaining input + 1) none start)
      (visibleFrom sequence none es) failure :=
    advanceToVisible_produces rfl rfl hok h (Nat.lt_succ_of_le h.length_le)
  have hkeeps : (advanceToVisible (remaining input + 1) none start).1.ok = true →
      Keeps (fun _ => True) start (advanceToVisible (remaining input + 1) none start).2 :=
    advanceToVisible_keeps (fun _ _ _ _ => trivial) trivial
  unfold Filtered newVisibilityIterator advance
  unfold MovedProduces moved at hproduces
  generalize advanceToVisible (remaining input + 1) none start = result at hproduces hkeeps ⊢
  obtain ⟨status, v⟩ := result
  by_cases hstatus : status.ok = true
  · have hv : (InternalIterator.status v).ok = true := by
      rw [show InternalIterator.status v = Status.okay from (hkeeps hstatus).2.2]
      rfl
    simpa [hstatus, hv] using hproduces
  · simp only [hstatus] at hproduces ⊢
    exact ⟨hproduces.1, hproduces.2.1⟩

/-- An input that has failed before is invalid, and `AdvanceToVisible` returns at once. -/
theorem not_filtered_of_failed {input : ι} (h : Walks input es failure)
    (hfailed : ¬ (InternalIterator.status input).ok = true) {sequence : ℕ}
    {out : List InternalEntry} : ¬ Filtered input sequence out failure := by
  obtain ⟨rfl, hentry⟩ := h.of_failed hfailed
  have hnew : newVisibilityIterator input sequence = .ok ⟨input, sequence, false, .okay⟩ := by
    simp [newVisibilityIterator, advance, advanceToVisible, hentry]
  have hinvalid : InternalIterator.entry? (⟨input, sequence, false, .okay⟩ : VisibilityIterator ι) =
      none := rfl
  rw [Filtered, hnew]
  cases out with
  | nil => exact fun hfiltered => absurd hfiltered.2.2 (by simp)
  | cons e out => exact fun hfiltered => absurd (hinvalid.symm.trans hfiltered.1) (by simp)

end VisibilityIterator

/-- The visibility filter is exact for every input that has not failed before it is handed over. -/
theorem visibility_filter_is_exact_iff {ι : Type} [InternalIterator ι] {input : ι}
    {es : List InternalEntry} {failure : Option Status} (h : InternalIterator.Walks input es failure)
    (hord : Ordered es) (sequence : ℕ) :
    (∃ out, VisibilityIterator.Visible es sequence out ∧
      VisibilityIterator.Filtered input sequence out failure) ↔
    (InternalIterator.status input).ok = true := by
  constructor
  · rintro ⟨out, -, hfiltered⟩
    by_contra hfailed
    exact VisibilityIterator.not_filtered_of_failed h hfailed hfiltered
  · intro hok
    exact ⟨_, VisibilityIterator.visible_visibleFrom hord sequence,
      VisibilityIterator.filtered_of_walks hok h sequence⟩

/-- Two versions of one key and a tombstone above an old value, read at sequence 3. -/
theorem visibility_filter_is_exact_captured :
    ∃ out, VisibilityIterator.Visible
        [⟨[97], 4, .value, [1]⟩, ⟨[97], 1, .value, [2]⟩, ⟨[98], 3, .tombstone, []⟩,
          ⟨[98], 2, .value, [3]⟩] 3 out ∧
      VisibilityIterator.Filtered (⟨[], [], [⟨[97], 4, .value, [1]⟩, ⟨[97], 1, .value, [2]⟩,
          ⟨[98], 3, .tombstone, []⟩, ⟨[98], 2, .value, [3]⟩]⟩ : VectorIterator) 3 out none := by
  let es : List InternalEntry := [⟨[97], 4, .value, [1]⟩, ⟨[97], 1, .value, [2]⟩,
    ⟨[98], 3, .tombstone, []⟩, ⟨[98], 2, .value, [3]⟩]
  have hwalks : InternalIterator.Walks (⟨[], [], es⟩ : VectorIterator) es none :=
    (VectorIterator.yields [] [] es).walks
  exact (visibility_filter_is_exact_iff hwalks (by decide) 3).mpr rfl

/-- A merging iterator that is in an error yields nothing, and the filter over it ends without one. -/
theorem visibility_filter_drops_failure :
    ∃ (input : MergingIterator VectorIterator) (failure : Option Status),
      InternalIterator.Walks input [] failure ∧ failure ≠ none ∧
      ¬ ∃ out, VisibilityIterator.Visible [] 1 out ∧
        VisibilityIterator.Filtered input 1 out failure := by
  let input : MergingIterator VectorIterator := ⟨[], [], none, none, .ioError "read failed"⟩
  have hwalks : InternalIterator.Walks input [] (some (.ioError "read failed")) := ⟨rfl, rfl⟩
  refine ⟨input, _, hwalks, by simp, ?_⟩
  rintro ⟨out, -, hfiltered⟩
  exact VisibilityIterator.not_filtered_of_failed hwalks (by decide) hfiltered

end TinyLsm
