import TinyLsm.Iterator.InternalIterator

/-!
# VisibilityIterator

`VisibilityIterator` of `iterator/internal_iterator.cpp`: of every key the newest version at the
read sequence, tombstones hidden. Its two nested loops are one recursion here, bounded by what the
input still yields; `seen` is `has_visible_version` for the key of the inner loop.
-/

namespace TinyLsm

open InternalIterator

/-- `VisibilityIterator`. -/
structure VisibilityIterator (ι : Type) where
  input : ι
  sequence : ℕ
  valid : Bool
  status : Status

/-- Whether the inner loop, at an entry of `key`, has already met the visible version of it. -/
def seenFor (context : Option (Bytes × Bool)) (key : Bytes) : Bool :=
  match context with
  | some (current, seen) => decide (current = key) && seen
  | none => false

namespace VisibilityIterator

variable {ι : Type} [InternalIterator ι]

/-- `VisibilityIterator::SetError`. -/
def setError (v : VisibilityIterator ι) (s : Status) : Status × VisibilityIterator ι :=
  (s, { v with status := s, valid := false })

/-- `VisibilityIterator::AdvanceToVisible`. -/
def advanceToVisible : ℕ → Option (Bytes × Bool) → VisibilityIterator ι →
    Status × VisibilityIterator ι
  | 0, _, v => (.okay, v)
  | fuel + 1, context, v =>
    match InternalIterator.entry? v.input with
    | none => (.okay, v)
    | some candidate =>
      let seen := seenFor context candidate.userKey
      let visible := !seen && decide (candidate.sequence ≤ v.sequence)
      if visible && decide (candidate.type = .value) then (.okay, { v with valid := true })
      else
        match moved (InternalIterator.next v.input) with
        | .error s => v.setError s
        | .ok input =>
          advanceToVisible fuel (some (candidate.userKey, seen || visible)) { v with input := input }

/-- The loop of `VisibilityIterator::Next`: the remaining versions of the key. -/
def skipKey (key : Bytes) : ℕ → ι → Result ι
  | 0, input => .ok input
  | fuel + 1, input =>
    match InternalIterator.entry? input with
    | none => .ok input
    | some e =>
      if e.userKey = key then
        match moved (InternalIterator.next input) with
        | .error s => .error s
        | .ok input => skipKey key fuel input
      else .ok input

/-- `AdvanceToVisible` with enough fuel to exhaust the input. -/
def advance (v : VisibilityIterator ι) : Status × VisibilityIterator ι :=
  advanceToVisible (remaining v.input + 1) none v

/-- `VisibilityIterator::Seek`. -/
def seek (v : VisibilityIterator ι) (target : Bytes) : Status × VisibilityIterator ι :=
  if ¬ v.status.ok then (v.status, v)
  else
    match moved (InternalIterator.seek v.input target) with
    | .error s => v.setError s
    | .ok input => advance { v with input := input, valid := false }

/-- `VisibilityIterator::Valid` and `entry`. -/
def entry? (v : VisibilityIterator ι) : Option InternalEntry :=
  if v.status.ok && v.valid then InternalIterator.entry? v.input else none

/-- `VisibilityIterator::Next`. -/
def next (v : VisibilityIterator ι) : Status × VisibilityIterator ι :=
  if ¬ v.status.ok then (v.status, v)
  else
    match (if v.valid then InternalIterator.entry? v.input else none) with
    | none => (.okay, v)
    | some e =>
      match skipKey e.userKey (remaining v.input + 1) v.input with
      | .error s => v.setError s
      | .ok input => advance { v with input := input, valid := false }

instance : InternalIterator (VisibilityIterator ι) where
  entry? := entry?
  seek := seek
  next := next
  status := VisibilityIterator.status
  remaining v := remaining v.input

end VisibilityIterator

/-- `NewVisibilityIterator`. -/
def newVisibilityIterator {ι : Type} [InternalIterator ι] (input : ι) (sequence : ℕ) :
    Result (VisibilityIterator ι) :=
  let (status, v) := VisibilityIterator.advance ⟨input, sequence, false, .okay⟩
  if ¬ status.ok then .error status else .ok v

/-! ## The visible entries of a list -/

/-- What `AdvanceToVisible` and `Next` leave of a version-ordered list. -/
def visibleFrom (sequence : ℕ) : Option (Bytes × Bool) → List InternalEntry → List InternalEntry
  | _, [] => []
  | context, e :: es =>
    let seen := seenFor context e.userKey
    let visible := !seen && decide (e.sequence ≤ sequence)
    let rest := visibleFrom sequence (some (e.userKey, seen || visible)) es
    if visible && decide (e.type = .value) then e :: rest else rest

variable {ι : Type} [InternalIterator ι] {sequence : ℕ} {es : List InternalEntry}

theorem seenFor_eq_true_iff {context : Option (Bytes × Bool)} {key : Bytes} :
    seenFor context key = true ↔ context = some (key, true) := by
  cases context with
  | none => simp [seenFor]
  | some p =>
    obtain ⟨current, seen⟩ := p
    simp [seenFor]

/-- Only a context that has met the visible version of the first key matters. -/
theorem visibleFrom_eq_none {context : Option (Bytes × Bool)}
    (h : ∀ e ∈ es.head?, seenFor context e.userKey = false) :
    visibleFrom sequence context es = visibleFrom sequence none es := by
  cases es with
  | nil => rfl
  | cons e es =>
    have := h e rfl
    simp only [visibleFrom, this]
    rfl

/-- Behind the visible version of a key its remaining versions are passed over. -/
theorem visibleFrom_seen (key : Bytes) :
    visibleFrom sequence (some (key, true)) es =
      visibleFrom sequence none (es.dropWhile fun e => decide (e.userKey = key)) := by
  induction es with
  | nil => rfl
  | cons e es ih =>
    by_cases hkey : e.userKey = key
    · rw [List.dropWhile_cons, if_pos (by simpa using hkey), ← ih]
      simp [visibleFrom, seenFor, hkey]
    · rw [List.dropWhile_cons, if_neg (by simpa using hkey)]
      exact visibleFrom_eq_none fun e' he' => by
        obtain rfl := Option.some.inj he'
        simp [seenFor, Ne.symm hkey]

theorem visibleFrom_sublist (context : Option (Bytes × Bool)) :
    (visibleFrom sequence context es).Sublist es := by
  induction es generalizing context with
  | nil => exact List.Sublist.refl _
  | cons e es ih =>
    simp only [visibleFrom]
    split
    · exact (ih _).cons_cons e
    · exact (ih _).cons e

/-- An entry is visible iff it is the newest version of its key at the sequence, and a value. -/
theorem mem_visibleFrom {context : Option (Bytes × Bool)} (hord : Ordered es)
    (hctx : ∀ p ∈ context, ∀ e ∈ es, p.1 ≤ e.userKey) {e : InternalEntry} :
    e ∈ visibleFrom sequence context es ↔
      findVersion es e.userKey sequence = some e ∧ e.type = .value ∧
        seenFor context e.userKey = false := by
  induction es generalizing context with
  | nil => simp [visibleFrom, findVersion_nil]
  | cons a es ih =>
    obtain ⟨hall, hrest⟩ := List.pairwise_cons.mp hord
    have hkeys : ∀ seen : Bool, ∀ p ∈ some (a.userKey, seen), ∀ e ∈ es, p.1 ≤ e.userKey := by
      rintro seen p hp e he
      obtain rfl := Option.some.inj hp
      exact (hall e he).key_le
    rw [findVersion_cons]
    by_cases hkey : e.userKey = a.userKey
    · -- the key of the front
      by_cases hvis : a.sequence ≤ sequence
      · have hav : a.Visible e.userKey sequence = true :=
          InternalEntry.visible_iff.mpr ⟨hkey.symm, hvis⟩
        rw [if_pos hav]
        have hskip : e ∉ visibleFrom sequence (some (a.userKey, true)) es := by
          rw [ih hrest (hkeys _)]
          rintro ⟨-, -, hs⟩
          rw [hkey] at hs
          simp [seenFor] at hs
        cases hseen : seenFor context a.userKey with
        | true =>
          simp only [visibleFrom, hseen, Bool.not_true, Bool.false_and, Bool.true_or]
          rw [if_neg (by simp), hkey, hseen]
          simpa using hskip
        | false =>
          simp only [visibleFrom, hseen, Bool.not_false, Bool.true_and, hvis, decide_true,
            Bool.or_true, hkey, Option.some.injEq]
          by_cases htype : a.type = .value
          · simp only [htype, decide_true, if_true, List.mem_cons]
            constructor
            · rintro (rfl | h)
              · exact ⟨rfl, htype, trivial⟩
              · exact absurd h hskip
            · rintro ⟨h, -, -⟩
              exact .inl h.symm
          · simp only [htype, decide_false, Bool.false_eq_true, if_false]
            constructor
            · intro h
              exact absurd h hskip
            · rintro ⟨rfl, h, -⟩
              exact absurd h htype
      · have hav : ¬ a.Visible e.userKey sequence = true := fun h =>
          hvis (InternalEntry.visible_iff.mp h).2
        rw [if_neg hav]
        simp only [visibleFrom, hvis, decide_false, Bool.and_false, Bool.false_and,
          Bool.false_eq_true, if_false, Bool.or_false]
        rw [ih hrest (hkeys _), hkey]
        simp [seenFor]
    · have hav : ¬ a.Visible e.userKey sequence = true := fun h =>
        hkey (InternalEntry.visible_iff.mp h).1.symm
      rw [if_neg hav]
      have hne : a ≠ e := fun h => hkey (h ▸ rfl)
      have hmem : e ∈ visibleFrom sequence context (a :: es) ↔
          findVersion es e.userKey sequence = some e ∧ e.type = .value := by
        simp only [visibleFrom]
        have hother : ∀ b, seenFor (some (a.userKey, b)) e.userKey = false := fun b => by
          simp [seenFor, Ne.symm hkey]
        split
        · rw [List.mem_cons, ih hrest (hkeys _), hother]
          simp [Ne.symm hne]
        · rw [ih hrest (hkeys _), hother]
          simp
      rw [hmem]
      constructor
      · rintro ⟨hf, ht⟩
        refine ⟨hf, ht, ?_⟩
        -- a seen key would be the key of the front
        by_contra hs
        rw [Bool.not_eq_false, seenFor_eq_true_iff] at hs
        have hle := hctx _ hs a List.mem_cons_self
        exact hkey (le_antisymm hle (hkeys true _ rfl e (findVersion_mem hf).1))
      · rintro ⟨hf, ht, -⟩
        exact ⟨hf, ht⟩

theorem mem_visible (hord : Ordered es) {e : InternalEntry} :
    e ∈ visibleFrom sequence none es ↔
      findVersion es e.userKey sequence = some e ∧ e.type = .value := by
  rw [mem_visibleFrom hord (by simp)]
  simp [seenFor]

/-- Each key is visible once, in key order. -/
theorem visible_keys_increase (hord : Ordered es) :
    (visibleFrom sequence none es).Pairwise fun a b => a.userKey < b.userKey := by
  have hsub : (visibleFrom sequence none es).Pairwise InternalLess :=
    List.Pairwise.sublist (visibleFrom_sublist none) hord
  refine hsub.imp_of_mem fun {a b} ha hb hab => ?_
  rcases hab with hlt | ⟨hkey, hs⟩
  · exact hlt
  · -- one key has one newest version
    have hfa := ((mem_visible hord).mp ha).1
    have hfb := ((mem_visible hord).mp hb).1
    rw [hkey, hfb] at hfa
    obtain rfl := Option.some.inj hfa
    exact absurd hs (lt_irrefl _)

/-! ## The iterator yields them -/

namespace VisibilityIterator

/-- A position of the iterator: invalid at the end of the input, or valid on an entry that is
visible in the rest of it. -/
structure At (v : VisibilityIterator ι) (sequence : ℕ) (rest : List InternalEntry) : Prop where
  sequence_eq : v.sequence = sequence
  status_ok : v.status.ok = true
  input : Yields v.input rest
  valid_iff : if v.valid then ∃ e es, rest = e :: es ∧ visibleFrom sequence none rest =
      e :: visibleFrom sequence (some (e.userKey, true)) es
    else rest = []

theorem advanceToVisible_at : ∀ {fuel : ℕ} {context : Option (Bytes × Bool)}
    {v : VisibilityIterator ι} {es : List InternalEntry}, v.sequence = sequence →
    v.status.ok = true → v.valid = false → Yields v.input es → es.length < fuel →
    ∃ v' rest, moved (advanceToVisible fuel context v) = .ok v' ∧ At v' sequence rest ∧
      visibleFrom sequence none rest = visibleFrom sequence context es ∧
      rest.length ≤ es.length := by
  intro fuel
  induction fuel with
  | zero => intro _ _ _ _ _ _ _ h; exact absurd h (Nat.not_lt_zero _)
  | succ fuel ih =>
    intro context v es hseq hstatus hvalid hy hfuel
    subst hseq
    have hmoved : ∀ v' : VisibilityIterator ι, v'.status.ok = true →
        moved (Status.okay, v') = .ok v' := fun v' hv' => by
      have : (InternalIterator.status v').ok = true := hv'
      simp [moved, this]
    cases es with
    | nil =>
      refine ⟨v, [], ?_, ⟨rfl, hstatus, hy, by simp [hvalid]⟩, rfl, le_rfl⟩
      rw [advanceToVisible, hy.entry?]
      exact hmoved v hstatus
    | cons e es =>
      obtain ⟨hentry, -, -, input, hnext, hy'⟩ := id hy
      simp only [advanceToVisible, hentry]
      by_cases hshow : (!seenFor context e.userKey && decide (e.sequence ≤ v.sequence) &&
          decide (e.type = .value)) = true
      · rw [if_pos hshow]
        have hparts := hshow
        simp only [Bool.and_eq_true, Bool.not_eq_true', decide_eq_true_eq] at hparts
        obtain ⟨⟨hseen, hle⟩, htype⟩ := hparts
        refine ⟨{ v with valid := true }, e :: es, hmoved _ hstatus, ⟨rfl, hstatus, hy, ?_⟩, ?_,
          le_rfl⟩
        · rw [if_pos rfl]
          refine ⟨e, es, rfl, ?_⟩
          simp [visibleFrom, seenFor, hle, htype]
        · exact (visibleFrom_eq_none fun e' he' => by
            obtain rfl := Option.some.inj he'
            exact hseen).symm
      · rw [if_neg hshow, hnext]
        obtain ⟨v', rest, hadv, hat, hvis, hlen⟩ := ih
          (v := { v with input := input }) rfl hstatus hvalid hy' (by simpa using hfuel)
        refine ⟨v', rest, hadv, hat, ?_, by simp; omega⟩
        rw [hvis]
        simp only [visibleFrom]
        rw [if_neg hshow]

theorem skipKey_yields (key : Bytes) : ∀ {fuel : ℕ} {input : ι} {es : List InternalEntry},
    Yields input es → es.length < fuel →
    ∃ input', skipKey key fuel input = .ok input' ∧
      Yields input' (es.dropWhile fun e => decide (e.userKey = key)) := by
  intro fuel
  induction fuel with
  | zero => intro _ _ _ h; exact absurd h (Nat.not_lt_zero _)
  | succ fuel ih =>
    intro input es hy hfuel
    cases es with
    | nil =>
      refine ⟨input, ?_, hy⟩
      simp [skipKey, hy.entry?]
    | cons e es =>
      obtain ⟨hentry, -, -, input', hnext, hy'⟩ := id hy
      simp only [skipKey, hentry]
      by_cases hkey : e.userKey = key
      · rw [if_pos hkey, hnext, List.dropWhile_cons, if_pos (by simpa using hkey)]
        exact ih hy' (by simpa using hfuel)
      · rw [if_neg hkey, List.dropWhile_cons, if_neg (by simpa using hkey)]
        exact ⟨input, rfl, hy⟩

/-- At every position the iterator yields the visible entries of what its input yields. -/
theorem At.yields : ∀ {n : ℕ} {v : VisibilityIterator ι} {rest : List InternalEntry},
    rest.length < n → At v sequence rest → Yields v (visibleFrom sequence none rest) := by
  intro n
  induction n with
  | zero => intro _ _ h; exact absurd h (Nat.not_lt_zero _)
  | succ n ih =>
    intro v rest hn h
    have hvalid := h.valid_iff
    cases hv : v.valid with
    | false =>
      rw [hv] at hvalid
      simp only [Bool.false_eq_true, if_false] at hvalid
      subst hvalid
      refine ⟨?_, h.status_ok⟩
      change VisibilityIterator.entry? v = none
      simp [VisibilityIterator.entry?, hv]
    | true =>
      rw [hv, if_pos rfl] at hvalid
      obtain ⟨e, es, rfl, hvis⟩ := hvalid
      rw [hvis]
      have hentry : InternalIterator.entry? v.input = some e := h.input.entry?
      have hlen := h.input.length_le
      obtain ⟨input', hskip, hy'⟩ := skipKey_yields e.userKey h.input
        (by omega : (e :: es).length < remaining v.input + 1)
      rw [List.dropWhile_cons, if_pos (by simp)] at hy'
      obtain ⟨v', rest', hadv, hat, hvis', hle⟩ := advanceToVisible_at
        (v := { v with input := input', valid := false }) h.sequence_eq h.status_ok rfl hy'
        (Nat.lt_succ_of_le hy'.length_le)
      have hdrop : (es.dropWhile fun e' => decide (e'.userKey = e.userKey)).length ≤ es.length :=
        List.Sublist.length_le (List.dropWhile_sublist _)
      rw [List.length_cons] at hn hlen
      refine ⟨?_, h.status_ok, ?_, v', ?_, ?_⟩
      · change VisibilityIterator.entry? v = some e
        simp [VisibilityIterator.entry?, h.status_ok, hv, hentry]
      · have : (visibleFrom sequence (some (e.userKey, true)) es).length ≤ es.length :=
          List.Sublist.length_le (visibleFrom_sublist _)
        change _ < remaining v.input
        omega
      · change moved (VisibilityIterator.next v) = .ok v'
        rw [VisibilityIterator.next, if_neg (by simp [h.status_ok])]
        simp only [hv, if_true, hentry, hskip]
        exact hadv
      · rw [visibleFrom_seen, ← hvis']
        exact ih (by omega) hat

/-! ## What moves keep -/

section
variable {Q : ι → Prop} {v : VisibilityIterator ι}
  (hseek : ∀ it it' target, moved (InternalIterator.seek it target) = .ok it' → Q it → Q it')
  (hnext : ∀ it it', moved (InternalIterator.next it) = .ok it' → Q it → Q it')

/-- The input satisfies `Q`, and sequence and status are as before. -/
def Keeps (Q : ι → Prop) (v v' : VisibilityIterator ι) : Prop :=
  Q v'.input ∧ v'.sequence = v.sequence ∧ v'.status = v.status

include hnext in
theorem advanceToVisible_keeps {fuel : ℕ} {context : Option (Bytes × Bool)} (hQ : Q v.input)
    (hok : (advanceToVisible fuel context v).1.ok = true) :
    Keeps Q v (advanceToVisible fuel context v).2 := by
  induction fuel generalizing context v with
  | zero => exact ⟨hQ, rfl, rfl⟩
  | succ fuel ih =>
    simp only [advanceToVisible] at hok ⊢
    split
    · exact ⟨hQ, rfl, rfl⟩
    · rename_i candidate hentry
      simp only [hentry] at hok
      split
      · exact ⟨hQ, rfl, rfl⟩
      · rename_i hhidden
        rw [if_neg hhidden] at hok
        cases hmoved : moved (InternalIterator.next v.input) with
        | error s =>
          rw [hmoved] at hok
          exact absurd hok (by simp [setError, moved_eq_error hmoved])
        | ok input =>
          rw [hmoved] at hok
          exact ih (v := { v with input := input }) (hnext _ _ hmoved hQ) hok

include hnext in
theorem skipKey_keeps {key : Bytes} {fuel : ℕ} {input input' : ι} (hQ : Q input)
    (h : skipKey key fuel input = .ok input') : Q input' := by
  induction fuel generalizing input with
  | zero =>
    cases h
    exact hQ
  | succ fuel ih =>
    simp only [skipKey] at h
    split at h
    · cases h
      exact hQ
    split at h
    · split at h
      · cases h
      rename_i input₁ hmoved
      exact ih (hnext _ _ hmoved hQ) h
    · cases h
      exact hQ

theorem skipKey_error {key : Bytes} {fuel : ℕ} {input : ι} {s : Status}
    (h : skipKey key fuel input = .error s) : s.ok = false := by
  induction fuel generalizing input with
  | zero => cases h
  | succ fuel ih =>
    simp only [skipKey] at h
    split at h
    · cases h
    split at h
    · split at h
      · rename_i hmoved
        cases h
        exact moved_eq_error hmoved
      · exact ih h
    · cases h

include hseek hnext in
/-- A seek that succeeds keeps what the moves of the input keep. -/
theorem seek_keeps {target : Bytes} (hQ : Q v.input) (hok : (v.seek target).1.ok = true) :
    v.status.ok = true ∧ Keeps Q v (v.seek target).2 := by
  unfold seek at hok ⊢
  by_cases hstatus : v.status.ok = true
  · rw [if_neg (by simp [hstatus])] at hok ⊢
    cases hmoved : moved (InternalIterator.seek v.input target) with
    | error s =>
      rw [hmoved] at hok
      exact absurd hok (by simp [setError, moved_eq_error hmoved])
    | ok input =>
      rw [hmoved] at hok
      exact ⟨hstatus, advanceToVisible_keeps (v := { v with input := input, valid := false }) hnext
        (hseek _ _ _ hmoved hQ) hok⟩
  · rw [if_pos hstatus] at hok
    exact absurd hok hstatus

include hnext in
/-- So does a `Next`. -/
theorem next_keeps (hQ : Q v.input) (hok : v.next.1.ok = true) :
    v.status.ok = true ∧ Keeps Q v v.next.2 := by
  unfold next at hok ⊢
  by_cases hstatus : v.status.ok = true
  · rw [if_neg (by simp [hstatus])] at hok ⊢
    refine ⟨hstatus, ?_⟩
    split
    · exact ⟨hQ, rfl, rfl⟩
    · rename_i e hentry
      simp only [hentry] at hok
      cases hskip : skipKey e.userKey (remaining v.input + 1) v.input with
      | error s =>
        rw [hskip] at hok
        exact absurd hok (by simp [setError, skipKey_error hskip])
      | ok input =>
        rw [hskip] at hok
        exact advanceToVisible_keeps (v := { v with input := input, valid := false }) hnext
          (skipKey_keeps hnext hQ hskip) hok
  · rw [if_pos hstatus] at hok
    exact absurd hok hstatus

end

/-- A seek of an input that then yields a list leaves the visible entries of it ahead. -/
theorem seek_yields {v : VisibilityIterator ι} {target : Bytes} (hstatus : v.status.ok = true)
    (hseek : SeekYields v.input target es) :
    (v.seek target).1.ok = true ∧ Yields (v.seek target).2 (visibleFrom v.sequence none es) := by
  obtain ⟨input, hmoved, hy⟩ := hseek
  obtain ⟨v', rest, hadv, hat, hvis, -⟩ := advanceToVisible_at
    (v := { v with input := input, valid := false }) rfl hstatus rfl hy
    (Nat.lt_succ_of_le hy.length_le)
  have heq : v.seek target = advance { v with input := input, valid := false } := by
    rw [seek, if_neg (by simp [hstatus]), hmoved]
  obtain ⟨hok, hv', -⟩ := moved_eq_ok hadv
  rw [heq]
  refine ⟨hok, ?_⟩
  rw [← hvis]
  have hyields := hat.yields (Nat.lt_succ_self _)
  rw [← hv'] at hyields
  exact hyields

end VisibilityIterator

/-- `NewVisibilityIterator` over an iterator yields the visible entries of what that yields. -/
theorem newVisibilityIterator_yields {input : ι} (h : Yields input es) (sequence : ℕ) :
    ∃ v, newVisibilityIterator input sequence = .ok v ∧
      Yields v (visibleFrom sequence none es) := by
  obtain ⟨v, rest, hadv, hat, hvis, -⟩ := VisibilityIterator.advanceToVisible_at
    (v := ⟨input, sequence, false, .okay⟩) rfl rfl rfl h
    (Nat.lt_succ_of_le h.length_le)
  refine ⟨v, ?_, hvis ▸ hat.yields (Nat.lt_succ_self _)⟩
  unfold moved at hadv
  unfold newVisibilityIterator VisibilityIterator.advance
  split at hadv
  · cases hadv
  · rename_i hok
    split at hadv
    · cases hadv
    · obtain rfl := Except.ok.inj hadv
      simp only
      rw [if_neg hok]

end TinyLsm
