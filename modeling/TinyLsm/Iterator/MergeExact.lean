import TinyLsm.Iterator.MergingIterator

/-!
# The merge is exact

What `MergingIterator` yields when its inputs share entries or fail. The merge of lists is given on
its own: it takes the first of the front entries while that one stands at the front of one list only.
-/

namespace TinyLsm

/-! ## What an iterator produces -/

namespace InternalIterator

variable {ι : Type} [InternalIterator ι]

/-- The iterator walks the list, and then ends, or fails where `failure` says so. `P` is what holds
of an iterator that failed. -/
def Produces (P : ι → Status → Prop) : ι → List InternalEntry → Option Status → Prop
  | it, [], failure => entry? it = none ∧ (status it).ok = true ∧ failure = none
  | it, e :: es, failure => entry? it = some e ∧ (status it).ok = true ∧
    match moved (next it) with
    | .ok it' => Produces P it' es failure
    | .error s => es = [] ∧ failure = some s ∧ P (next it).2 s

/-- The same behind an operation that moved the iterator. -/
def MovedProduces (P : ι → Status → Prop) (result : Status × ι) (es : List InternalEntry)
    (failure : Option Status) : Prop :=
  match moved result with
  | .ok it => Produces P it es failure
  | .error s => es = [] ∧ failure = some s ∧ P result.2 s

/-- The iterator is in an error that stays. -/
structure Stuck (it : ι) (s : Status) : Prop where
  failed : s.ok = false
  status_eq : status it = s
  invalid : entry? it = none
  next_eq : next it = (s, it)
  seek_eq : ∀ target, seek it target = (s, it)

variable {P : ι → Status → Prop}

theorem produces_cons {it : ι} {e : InternalEntry} {es : List InternalEntry}
    {failure : Option Status} : Produces P it (e :: es) failure ↔
      entry? it = some e ∧ (status it).ok = true ∧ MovedProduces P (next it) es failure := Iff.rfl

theorem Produces.entry? {it : ι} {es : List InternalEntry} {failure : Option Status}
    (h : Produces P it es failure) : entry? it = es.head? := by
  cases es with
  | nil => exact h.1
  | cons e es => exact h.1

theorem Yields.produces {it : ι} {es : List InternalEntry} (h : Yields it es) :
    Produces P it es none := by
  induction es generalizing it with
  | nil => exact ⟨h.1, h.2, rfl⟩
  | cons e es ih =>
    obtain ⟨hentry, hok, -, it', hmoved, hrest⟩ := h
    refine ⟨hentry, hok, ?_⟩
    rw [hmoved]
    exact ih hrest

end InternalIterator

/-! ## The merge of lists -/

/-- What an input produces. -/
structure MergeSource where
  entries : List InternalEntry
  failure : Option Status

/-- Two entries stand for one version of a key. -/
def SameVersion (a b : InternalEntry) : Prop := a.userKey = b.userKey ∧ a.sequence = b.sequence

/-- The status of a merge that meets a version twice. -/
def duplicateVersion : Status := .corruption "duplicate user key and sequence"

/-- The merge of what the sources produce: the entries, and how it ends. -/
inductive Merges : List MergeSource → List InternalEntry → Option Status → Prop
  | ends {sources : List MergeSource} (h : ∀ p ∈ sources, p.entries = []) : Merges sources [] none
  | duplicate {sources : List MergeSource} {i j : ℕ} {a b as bs la lb} (hij : i ≠ j)
      (hi : sources[i]? = some ⟨a :: as, la⟩) (hj : sources[j]? = some ⟨b :: bs, lb⟩)
      (hsame : SameVersion a b) (hfirst : ∀ p ∈ sources, ∀ c ∈ p.entries, ¬ InternalLess c a) :
      Merges sources [] (some duplicateVersion)
  | fails {sources : List MergeSource} {i : ℕ} {a s} (hi : sources[i]? = some ⟨[a], some s⟩)
      (hfirst : ∀ j p, j ≠ i → sources[j]? = some p → ∀ c ∈ p.entries, InternalLess a c) :
      Merges sources [a] (some s)
  | takes {sources : List MergeSource} {i : ℕ} {a as last out failure}
      (hi : sources[i]? = some ⟨a :: as, last⟩) (hmore : as ≠ [] ∨ last = none)
      (hfirst : ∀ j p, j ≠ i → sources[j]? = some p → ∀ c ∈ p.entries, InternalLess a c)
      (hrest : Merges (sources.set i ⟨as, last⟩) out failure) : Merges sources (a :: out) failure

/-- List `j` holds the entry. -/
def Holds (lists : List (List InternalEntry)) (j : ℕ) (e : InternalEntry) : Prop :=
  ∃ es, lists[j]? = some es ∧ e ∈ es

/-- Two of the lists hold the version. -/
def Duplicated (lists : List (List InternalEntry)) (d : InternalEntry) : Prop :=
  ∃ i j a b, i ≠ j ∧ Holds lists i a ∧ Holds lists j b ∧ SameVersion a d ∧ SameVersion b d

/-- The ordered entries of the lists that stand before every duplicated version. -/
structure CorrectMerge (lists : List (List InternalEntry)) (es : List InternalEntry) : Prop where
  ordered : Ordered es
  mem_iff : ∀ e, e ∈ es ↔ e ∈ lists.flatten ∧ ∀ d, Duplicated lists d → InternalLess e d

theorem SameVersion.symm {a b : InternalEntry} (h : SameVersion a b) : SameVersion b a :=
  ⟨h.1.symm, h.2.symm⟩

theorem SameVersion.less_left {a b c : InternalEntry} (h : SameVersion a b) (hbc : InternalLess b c) :
    InternalLess a c := by
  rcases hbc with hlt | ⟨hk, hs⟩
  · exact .inl (h.1 ▸ hlt)
  · exact .inr ⟨h.1.trans hk, h.2 ▸ hs⟩

theorem SameVersion.less_right {a b c : InternalEntry} (h : SameVersion b c) (hab : InternalLess a b) :
    InternalLess a c := by
  rcases hab with hlt | ⟨hk, hs⟩
  · exact .inl (h.1 ▸ hlt)
  · exact .inr ⟨hk.trans h.1, h.2 ▸ hs⟩

theorem Duplicated.congr {lists : List (List InternalEntry)} {d d' : InternalEntry}
    (h : Duplicated lists d) (hd : SameVersion d d') : Duplicated lists d' := by
  obtain ⟨i, j, a, b, hij, ha, hb, had, hbd⟩ := h
  exact ⟨i, j, a, b, hij, ha, hb, ⟨had.1.trans hd.1, had.2.trans hd.2⟩,
    ⟨hbd.1.trans hd.1, hbd.2.trans hd.2⟩⟩

theorem mem_flatten_iff_holds {lists : List (List InternalEntry)} {e : InternalEntry} :
    e ∈ lists.flatten ↔ ∃ j, Holds lists j e := by
  constructor
  · intro he
    obtain ⟨es, hes, hmem⟩ := List.mem_flatten.mp he
    obtain ⟨j, hj⟩ := List.mem_iff_getElem?.mp hes
    exact ⟨j, es, hj, hmem⟩
  · rintro ⟨j, es, hj, hmem⟩
    exact List.mem_flatten_of_mem (List.mem_of_getElem? hj) hmem

/-- An ordered list with every entry of another one that stands before one of its own starts the
other. -/
theorem Ordered.isPrefix {es all : List InternalEntry} (hes : Ordered es) (hall : Ordered all)
    (hmem : ∀ e ∈ es, e ∈ all)
    (hclosed : ∀ e ∈ es, ∀ x ∈ all, InternalLess x e → x ∈ es) : es <+: all := by
  induction all generalizing es with
  | nil =>
    cases es with
    | nil => exact List.prefix_rfl
    | cons e es => exact absurd (hmem e List.mem_cons_self) (by simp)
  | cons x all ih =>
    cases es with
    | nil => exact List.nil_prefix
    | cons e es =>
      obtain ⟨hx, hall'⟩ := List.pairwise_cons.mp hall
      obtain ⟨he, hes'⟩ := List.pairwise_cons.mp hes
      obtain rfl : e = x := by
        rcases List.mem_cons.mp (hmem e List.mem_cons_self) with heq | hlater
        · exact heq
        · have hless := hx e hlater
          rcases List.mem_cons.mp (hclosed e List.mem_cons_self x List.mem_cons_self hless) with
            heq | hin
          · exact heq.symm
          · exact absurd (he x hin) hless.asymm
      refine (List.prefix_cons_inj e).mpr (ih hes' hall' (fun y hy => ?_) fun y hy z hz hzy => ?_)
      · rcases List.mem_cons.mp (hmem y (List.mem_cons_of_mem _ hy)) with rfl | hin
        · exact absurd (he y hy) (InternalLess.irrefl y)
        · exact hin
      · rcases List.mem_cons.mp
          (hclosed y (List.mem_cons_of_mem _ hy) z (List.mem_cons_of_mem _ hz) hzy) with rfl | hin
        · exact absurd (hx z hz) (InternalLess.irrefl z)
        · exact hin

namespace Merges

/-- The lists of the sources. -/
abbrev lists (sources : List MergeSource) : List (List InternalEntry) :=
  sources.map MergeSource.entries

variable {sources : List MergeSource} {out : List InternalEntry} {failure : Option Status}

theorem holds_iff {i : ℕ} {p : MergeSource} (hi : sources[i]? = some p) {x : InternalEntry} :
    Holds (lists sources) i x ↔ x ∈ p.entries := by
  simp [Holds, hi]

theorem holds_of_ne {i j : ℕ} (q : MergeSource) (hj : j ≠ i) {x : InternalEntry} :
    Holds (lists (sources.set i q)) j x ↔ Holds (lists sources) j x := by
  simp [Holds, List.getElem?_set_ne (Ne.symm hj)]

theorem holds_set {i : ℕ} {p : MergeSource} (hi : sources[i]? = some p) (q : MergeSource)
    {x : InternalEntry} : Holds (lists (sources.set i q)) i x ↔ x ∈ q.entries := by
  refine holds_iff ?_
  rw [List.getElem?_set_self (List.getElem?_eq_some_iff.mp hi).1]

theorem holds_pos {j : ℕ} {x : InternalEntry} (h : Holds (lists sources) j x) :
    ∃ p, sources[j]? = some p ∧ x ∈ p.entries := by
  obtain ⟨es, hes, hx⟩ := h
  rw [List.getElem?_map] at hes
  obtain ⟨p, hp, rfl⟩ := Option.map_eq_some_iff.mp hes
  exact ⟨p, hp, hx⟩

/-- The source at index `i` loses its front entry. -/
theorem holds_front {i : ℕ} {a : InternalEntry} {as : List InternalEntry} {last : Option Status}
    (hi : sources[i]? = some ⟨a :: as, last⟩) {j : ℕ} {x : InternalEntry} :
    Holds (lists sources) j x ↔ (j = i ∧ x = a) ∨ Holds (lists (sources.set i ⟨as, last⟩)) j x := by
  by_cases hj : j = i
  · subst hj
    rw [holds_iff hi, holds_set hi, List.mem_cons]
    simp
  · rw [holds_of_ne _ hj]
    simp [hj]

/-- Behind the front entry of the source that is taken, every entry comes later. -/
theorem less_of_holds {i : ℕ} {a : InternalEntry} {as : List InternalEntry} {last : Option Status}
    (hi : sources[i]? = some ⟨a :: as, last⟩)
    (hfirst : ∀ j p, j ≠ i → sources[j]? = some p → ∀ c ∈ p.entries, InternalLess a c)
    (hord : ∀ p ∈ sources, Ordered p.entries) {j : ℕ} {x : InternalEntry}
    (hx : Holds (lists (sources.set i ⟨as, last⟩)) j x) : InternalLess a x := by
  by_cases hj : j = i
  · subst hj
    rw [holds_set hi] at hx
    exact (List.pairwise_cons.mp (hord _ (List.mem_of_getElem? hi))).1 x hx
  · rw [holds_of_ne _ hj] at hx
    obtain ⟨p, hp, hmem⟩ := holds_pos hx
    exact hfirst j p hj hp x hmem

/-- What the sources hold, and what a merge of them has put out. -/
structure Sound (sources : List MergeSource) (out : List InternalEntry) (failure : Option Status) :
    Prop where
  mem : ∀ x ∈ out, ∃ j, Holds (lists sources) j x
  ordered : Ordered out
  closed : ∀ x ∈ out, ∀ j y, Holds (lists sources) j y → InternalLess y x → y ∈ out
  single : ∀ x ∈ out, ¬ Duplicated (lists sources) x
  complete : failure = none → ∀ j y, Holds (lists sources) j y → y ∈ out
  failing : ∀ p ∈ sources, p.failure ≠ none →
    failure ≠ none ∧ ∀ x ∈ out, ∃ y ∈ p.entries, ¬ InternalLess y x
  reason : ∀ s, failure = some s → (∃ p ∈ sources, p.failure = some s) ∨
    s = duplicateVersion ∧ ∃ d, Duplicated (lists sources) d ∧
      ∀ j y, Holds (lists sources) j y → InternalLess y d → y ∈ out

/-- The front entry that is taken is held once. -/
theorem not_duplicated_front {i : ℕ} {a : InternalEntry}
    (hfirst : ∀ j p, j ≠ i → sources[j]? = some p → ∀ c ∈ p.entries, InternalLess a c) :
    ¬ Duplicated (lists sources) a := by
  rintro ⟨j, k, x, y, hjk, hx, hy, hxa, hya⟩
  have hother : ∀ l z, Holds (lists sources) l z → SameVersion z a → l = i := by
    intro l z hz hza
    by_contra hl
    obtain ⟨p, hp, hmem⟩ := holds_pos hz
    exact InternalLess.irrefl a (hza.less_right (hfirst l p hl hp z hmem))
  exact hjk ((hother j x hx hxa).trans (hother k y hy hya).symm)

theorem sound (h : Merges sources out failure) (hord : ∀ p ∈ sources, Ordered p.entries)
    (hne : ∀ p ∈ sources, p.failure ≠ none → p.entries ≠ []) : Sound sources out failure := by
  induction h with
  | ends h =>
    have hnone : ∀ j y, ¬ Holds (lists _) j y := fun j y hy => by
      obtain ⟨p, hp, hmem⟩ := holds_pos hy
      rw [h p (List.mem_of_getElem? hp)] at hmem
      cases hmem
    refine ⟨by simp, .nil, by simp, by simp, fun _ j y hy => absurd hy (hnone j y),
      fun p hp hf => absurd (h p hp) (hne p hp hf), by simp⟩
  | @duplicate sources i j a b as bs la lb hij hi hj hsame hfirst =>
    have ha : Holds (lists sources) i a := (holds_iff hi).mpr List.mem_cons_self
    have hb : Holds (lists sources) j b := (holds_iff hj).mpr List.mem_cons_self
    refine ⟨by simp, .nil, by simp, by simp, by simp, fun p hp hf => ⟨by simp, by simp⟩,
      fun s hs => .inr ⟨(Option.some.inj hs).symm, a,
        ⟨i, j, a, b, hij, ha, hb, ⟨rfl, rfl⟩, hsame.symm⟩, fun k y hy hless => ?_⟩⟩
    obtain ⟨p, hp, hmem⟩ := holds_pos hy
    exact absurd hless (hfirst p (List.mem_of_getElem? hp) y hmem)
  | @fails sources i a s hi hfirst =>
    refine ⟨fun x hx => ⟨i, ?_⟩, List.pairwise_singleton _ _, fun x hx j y hy hless => ?_,
      fun x hx => ?_, by simp, fun p hp hf => ⟨by simp, fun x hx => ?_⟩, fun s' hs => .inl ?_⟩
    · rw [List.mem_singleton.mp hx]
      exact (holds_iff hi).mpr List.mem_cons_self
    · rw [List.mem_singleton.mp hx] at hless
      rcases (holds_front hi).mp hy with ⟨-, rfl⟩ | hy
      · exact List.mem_singleton_self _
      · exact absurd hless (less_of_holds hi hfirst hord hy).asymm
    · rw [List.mem_singleton.mp hx]
      exact not_duplicated_front hfirst
    · rw [List.mem_singleton.mp hx]
      obtain ⟨j, hj⟩ := List.mem_iff_getElem?.mp hp
      obtain ⟨y, hy⟩ := List.exists_mem_of_ne_nil _ (hne p hp hf)
      refine ⟨y, hy, ?_⟩
      rcases (holds_front hi).mp ((holds_iff hj).mpr hy) with ⟨-, rfl⟩ | hheld
      · exact InternalLess.irrefl y
      · exact (less_of_holds hi hfirst hord hheld).asymm
    · exact ⟨_, List.mem_of_getElem? hi, hs⟩
  | @takes sources i a as last out failure hi hmore hfirst hrest ih =>
    have hord' : ∀ p ∈ sources.set i ⟨as, last⟩, Ordered p.entries := by
      intro p hp
      rcases List.mem_or_eq_of_mem_set hp with hp | rfl
      · exact hord p hp
      · exact (List.pairwise_cons.mp (hord _ (List.mem_of_getElem? hi))).2
    have hne' : ∀ p ∈ sources.set i ⟨as, last⟩, p.failure ≠ none → p.entries ≠ [] := by
      intro p hp hf
      rcases List.mem_or_eq_of_mem_set hp with hp | rfl
      · exact hne p hp hf
      · exact hmore.resolve_right hf
    have hs := ih hord' hne'
    have hless : ∀ {j x}, Holds (lists (sources.set i ⟨as, last⟩)) j x → InternalLess a x :=
      less_of_holds hi hfirst hord
    have hout : ∀ x ∈ out, InternalLess a x := fun x hx =>
      let ⟨j, hj⟩ := hs.mem x hx
      hless hj
    -- a later version is duplicated only if it is without the front entry
    have hdup : ∀ x, InternalLess a x → Duplicated (lists sources) x →
        Duplicated (lists (sources.set i ⟨as, last⟩)) x := by
      rintro x hax ⟨j, k, y, z, hjk, hy, hz, hyx, hzx⟩
      have hkeep : ∀ l w, Holds (lists sources) l w → SameVersion w x →
          Holds (lists (sources.set i ⟨as, last⟩)) l w := by
        intro l w hw hwx
        rcases (holds_front hi).mp hw with ⟨-, rfl⟩ | hw
        · exact absurd (hwx.symm.less_right hax) (InternalLess.irrefl w)
        · exact hw
      exact ⟨j, k, y, z, hjk, hkeep j y hy hyx, hkeep k z hz hzx, hyx, hzx⟩
    refine ⟨fun x hx => ?_, List.pairwise_cons.mpr ⟨hout, hs.ordered⟩, fun x hx j y hy hyx => ?_,
      fun x hx => ?_, fun hf j y hy => ?_, fun p hp hf => ?_, fun s hf => ?_⟩
    · rcases List.mem_cons.mp hx with rfl | hx
      · exact ⟨i, (holds_iff hi).mpr List.mem_cons_self⟩
      · obtain ⟨j, hj⟩ := hs.mem x hx
        exact ⟨j, (holds_front hi).mpr (.inr hj)⟩
    · rcases (holds_front hi).mp hy with ⟨-, rfl⟩ | hy
      · exact List.mem_cons_self
      · rcases List.mem_cons.mp hx with rfl | hx
        · exact absurd hyx (hless hy).asymm
        · exact List.mem_cons_of_mem _ (hs.closed x hx j y hy hyx)
    · rcases List.mem_cons.mp hx with rfl | hx
      · exact not_duplicated_front hfirst
      · exact fun hd => hs.single x hx (hdup x (hout x hx) hd)
    · rcases (holds_front hi).mp hy with ⟨-, rfl⟩ | hy
      · exact List.mem_cons_self
      · exact List.mem_cons_of_mem _ (hs.complete hf j y hy)
    · obtain ⟨j, hj⟩ := List.mem_iff_getElem?.mp hp
      by_cases hji : j = i
      · subst hji
        obtain rfl := Option.some.inj (hi.symm.trans hj)
        have hset : (⟨as, last⟩ : MergeSource) ∈ sources.set j ⟨as, last⟩ :=
          List.mem_set (List.getElem?_eq_some_iff.mp hi).1 _
        obtain ⟨hfailure, hall⟩ := hs.failing _ hset hf
        refine ⟨hfailure, fun x hx => ?_⟩
        rcases List.mem_cons.mp hx with rfl | hx
        · exact ⟨x, List.mem_cons_self, InternalLess.irrefl x⟩
        · obtain ⟨y, hy, hnot⟩ := hall x hx
          exact ⟨y, List.mem_cons_of_mem _ hy, hnot⟩
      · have hset : p ∈ sources.set i ⟨as, last⟩ :=
          List.mem_of_getElem? ((List.getElem?_set_ne (Ne.symm hji)).trans hj)
        obtain ⟨hfailure, hall⟩ := hs.failing p hset hf
        refine ⟨hfailure, fun x hx => ?_⟩
        rcases List.mem_cons.mp hx with rfl | hx
        · obtain ⟨y, hy⟩ := List.exists_mem_of_ne_nil _ (hne p hp hf)
          exact ⟨y, hy, (hfirst j p hji hj y hy).asymm⟩
        · exact hall x hx
    · rcases hs.reason s hf with ⟨p, hp, hps⟩ | ⟨hdups, d, ⟨j, k, y, z, hjk, hy, hz, hyd, hzd⟩, hall⟩
      · rcases List.mem_or_eq_of_mem_set hp with hp | rfl
        · exact .inl ⟨p, hp, hps⟩
        · exact .inl ⟨_, List.mem_of_getElem? hi, hps⟩
      · refine .inr ⟨hdups, d, ⟨j, k, y, z, hjk, (holds_front hi).mpr (.inr hy),
          (holds_front hi).mpr (.inr hz), hyd, hzd⟩, fun l x hx hxd => ?_⟩
        rcases (holds_front hi).mp hx with ⟨-, rfl⟩ | hx
        · exact List.mem_cons_self
        · exact List.mem_cons_of_mem _ (hall l x hx hxd)

/-- A merge stays before every duplicated version. -/
theorem Sound.before_duplicated (h : Sound sources out failure) {x d : InternalEntry} (hx : x ∈ out)
    (hd : Duplicated (lists sources) d) : InternalLess x d := by
  by_contra hnot
  by_cases hsame : SameVersion x d
  · exact h.single x hx (hd.congr hsame.symm)
  · have hdx := (InternalLess.total_of_ne hsame).resolve_left hnot
    obtain ⟨j, k, y, z, hjk, hy, hz, hyd, hzd⟩ := hd
    have hyout := h.closed x hx j y hy (hyd.less_left hdx)
    exact h.single y hyout ⟨j, k, y, z, hjk, hy, hz, ⟨rfl, rfl⟩,
      ⟨hzd.1.trans hyd.1.symm, hzd.2.trans hyd.2.symm⟩⟩

/-- Without failing sources a merge is the correct one, and it ends early only at a duplicate. -/
theorem Sound.correct (h : Sound sources out failure) (hnone : ∀ p ∈ sources, p.failure = none) :
    CorrectMerge (lists sources) out ∧ (failure = none ∧ (∀ d, ¬ Duplicated (lists sources) d) ∨
      failure = some duplicateVersion ∧ ∃ d, Duplicated (lists sources) d) := by
  cases hf : failure with
  | none =>
    have hsingle : ∀ d, ¬ Duplicated (lists sources) d := by
      rintro d ⟨j, k, y, z, hjk, hy, hz, hyd, hzd⟩
      exact h.single y (h.complete hf j y hy) ⟨j, k, y, z, hjk, hy, hz, ⟨rfl, rfl⟩,
        ⟨hzd.1.trans hyd.1.symm, hzd.2.trans hyd.2.symm⟩⟩
    refine ⟨⟨h.ordered, fun e => ⟨fun he => ?_, fun he => ?_⟩⟩, .inl ⟨rfl, hsingle⟩⟩
    · exact ⟨mem_flatten_iff_holds.mpr (h.mem e he), fun d hd => absurd hd (hsingle d)⟩
    · obtain ⟨j, hj⟩ := mem_flatten_iff_holds.mp he.1
      exact h.complete hf j e hj
  | some s =>
    rcases h.reason s hf with ⟨p, hp, hps⟩ | ⟨rfl, d, hd, hall⟩
    · rw [hnone p hp] at hps
      cases hps
    · refine ⟨⟨h.ordered, fun e => ⟨fun he => ?_, fun he => ?_⟩⟩, .inr ⟨rfl, d, hd⟩⟩
      · exact ⟨mem_flatten_iff_holds.mpr (h.mem e he), fun d hd => h.before_duplicated he hd⟩
      · obtain ⟨j, hj⟩ := mem_flatten_iff_holds.mp he.1
        exact hall j e hj (he.2 d hd)

/-- Ordered lists that share no version have no entry twice. -/
theorem nodup_flatten {lists : List (List InternalEntry)} (hord : ∀ es ∈ lists, Ordered es)
    (hsingle : ∀ d, ¬ Duplicated lists d) : lists.flatten.Nodup := by
  refine List.nodup_flatten.mpr ⟨fun es hes => (hord es hes).nodup, ?_⟩
  refine List.pairwise_iff_getElem.mpr fun i j hi hj hij x hx hy => ?_
  exact hsingle x ⟨i, j, x, x, hij.ne, ⟨_, List.getElem?_eq_getElem hi, hx⟩,
    ⟨_, List.getElem?_eq_getElem hj, hy⟩, ⟨rfl, rfl⟩, ⟨rfl, rfl⟩⟩

/-- What the sources produce before they fail, out of complete lists. -/
def Extends (p : MergeSource) (full : List InternalEntry) : Prop :=
  p.entries <+: full ∧ (p.failure = none → full = p.entries) ∧ Ordered full

/-- Whatever the failing sources would have produced, the merge starts the correct one. -/
theorem Sound.isPrefix (h : Sound sources out failure) {fulls : List (List InternalEntry)}
    (hext : List.Forall₂ Extends sources fulls) {all : List InternalEntry}
    (hall : CorrectMerge fulls all) : out <+: all := by
  -- an entry of a complete list that is not behind an output was produced
  have hheld : ∀ x ∈ out, ∀ j y, Holds fulls j y → ¬ InternalLess x y →
      Holds (lists sources) j y := by
    rintro x hx j y ⟨full, hfull, hy⟩ hnot
    obtain ⟨p, hp, ⟨rest, rfl⟩, hcomplete, hord⟩ :=
      MergingIterator.forall₂_getElem? (R := fun full p => Extends p full) hext.flip hfull
    rw [holds_iff hp]
    rcases List.mem_append.mp hy with hy | hy
    · exact hy
    · have hfails : p.failure ≠ none := by
        intro hnone
        obtain rfl : rest = [] := by simpa using hcomplete hnone
        cases hy
      obtain ⟨z, hz, hzx⟩ := (h.failing p (List.mem_of_getElem? hp) hfails).2 x hx
      have hzy := (List.pairwise_append.mp hord).2.2 z hz y hy
      -- `y` would come before `x`, and `z` before it
      by_cases hsame : SameVersion x y
      · exact absurd (hsame.symm.less_right hzy) hzx
      · exact absurd (hzy.trans ((InternalLess.total_of_ne hsame).resolve_left hnot)) hzx
  have hmono : ∀ j y, Holds (lists sources) j y → Holds fulls j y := by
    intro j y hy
    obtain ⟨p, hp, hmem⟩ := holds_pos hy
    obtain ⟨full, hfull, hprefix, -⟩ := MergingIterator.forall₂_getElem? hext hp
    exact ⟨full, hfull, hprefix.subset hmem⟩
  refine h.ordered.isPrefix hall.ordered (fun x hx => (hall.mem_iff x).mpr ⟨?_, fun d hd => ?_⟩)
    fun x hx y hy hyx => ?_
  · obtain ⟨j, hj⟩ := h.mem x hx
    exact mem_flatten_iff_holds.mpr ⟨j, hmono j x hj⟩
  · by_contra hnot
    obtain ⟨j, k, y, z, hjk, hy, hz, hyd, hzd⟩ := hd
    have hkeep : ∀ l w, Holds fulls l w → SameVersion w d → Holds (lists sources) l w :=
      fun l w hw hwd => hheld x hx l w hw fun hxw => hnot (hwd.less_right hxw)
    exact hnot (h.before_duplicated hx ⟨j, k, y, z, hjk, hkeep j y hy hyd, hkeep k z hz hzd, hyd, hzd⟩)
  · obtain ⟨j, hj⟩ := mem_flatten_iff_holds.mp ((hall.mem_iff y).mp hy).1
    exact h.closed x hx j y (hheld x hx j y hj hyx.asymm) hyx

end Merges

/-! ## The iterator merges -/

namespace MergingIterator

open InternalIterator Merges

variable {ι : Type} [InternalIterator ι] {m : MergingIterator ι} {sources : List MergeSource}

theorem stuck_setError {s : Status} (h : s.ok = false) : Stuck (m.setError s).2 s where
  failed := h
  status_eq := rfl
  invalid := by
    show MergingIterator.entry? (m.setError s).2 = none
    simp [MergingIterator.entry?, setError, h]
  next_eq := by
    show MergingIterator.next (m.setError s).2 = _
    simp [MergingIterator.next, setError, h]
  seek_eq target := by
    show MergingIterator.seek (m.setError s).2 target = _
    simp [MergingIterator.seek, setError, h]

theorem movedProduces_setError {s : Status} (h : s.ok = false) :
    MovedProduces Stuck (m.setError s) [] (some s) := by
  have hmoved : moved (m.setError s) = .error s := by simp [moved, setError, h]
  unfold MovedProduces
  rw [hmoved]
  exact ⟨rfl, rfl, stuck_setError h⟩

/-- The state `SelectCurrent` is called in. -/
structure PendingMerge (m : MergingIterator ι) (sources : List MergeSource) : Prop where
  status_ok : m.status.ok = true
  winner_none : m.winner = none
  inputs : List.Forall₂ (fun it p => Produces (fun _ _ => True) it p.entries p.failure) m.inputs
    sources
  heap_iff : ∀ i, i ∈ m.heap ↔ (entryAt m.inputs i).isSome
  heap_nodup : m.heap.Nodup
  previous : ∀ j x, Holds (lists sources) j x → m.previous ≠ some (x.userKey, x.sequence)

theorem PendingMerge.entryAt_iff (h : PendingMerge m sources) {i : ℕ} {a : InternalEntry} :
    entryAt m.inputs i = some a ↔ ∃ as last, sources[i]? = some ⟨a :: as, last⟩ := by
  constructor
  · intro ha
    obtain ⟨it, hit, hentry⟩ := Option.bind_eq_some_iff.mp ha
    obtain ⟨⟨es, last⟩, hp, hproduces⟩ := forall₂_getElem? h.inputs hit
    rw [hproduces.entry?] at hentry
    cases es with
    | nil => cases hentry
    | cons e as =>
      obtain rfl := Option.some.inj hentry
      exact ⟨as, last, hp⟩
  · rintro ⟨as, last, hp⟩
    obtain ⟨it, hit, hproduces⟩ := forall₂_getElem?
      (R := fun (p : MergeSource) it => Produces (fun _ _ => True) it p.entries p.failure)
      h.inputs.flip hp
    rw [entryAt, hit]
    exact hproduces.entry?

/-- Input `i` stands on the least entry `a`. -/
def won (m : MergingIterator ι) (i : ℕ) (a : InternalEntry) : MergingIterator ι :=
  { m with
    heap := m.heap.erase i
    winner := some i
    previous := some (a.userKey, a.sequence) }

/-- What `SelectCurrent` does: nothing is left, or two inputs stand on the least version, or one
does. -/
theorem PendingMerge.select (h : PendingMerge m sources)
    (hord : ∀ p ∈ sources, Ordered p.entries) :
    (m.selectCurrent = (.okay, m) ∧ ∀ p ∈ sources, p.entries = []) ∨
    (m.selectCurrent = m.setError duplicateVersion ∧
      Merges sources [] (some duplicateVersion)) ∨
    ∃ i a as last, sources[i]? = some ⟨a :: as, last⟩ ∧
      (∀ j p, j ≠ i → sources[j]? = some p → ∀ c ∈ p.entries, InternalLess a c) ∧
      m.selectCurrent = (.okay, m.won i a) := by
  have hall : ∀ k ∈ m.heap, (entryAt m.inputs k).isSome := fun k hk => (h.heap_iff k).mp hk
  cases hleast : least m.inputs m.heap with
  | none =>
    refine .inl ⟨by simp [MergingIterator.selectCurrent, hleast], fun p hp => ?_⟩
    obtain ⟨i, hi⟩ := List.mem_iff_getElem?.mp hp
    by_contra hne
    obtain ⟨a, as, has⟩ := List.exists_cons_of_ne_nil hne
    have ha : entryAt m.inputs i = some a := h.entryAt_iff.mpr ⟨as, p.failure, by rw [hi, ← has]⟩
    have := (h.heap_iff i).mpr (by rw [ha]; rfl)
    rw [least_eq_none hleast] at this
    cases this
  | some i =>
    have hi := least_mem hleast
    obtain ⟨a, ha⟩ := Option.isSome_iff_exists.mp (hall i hi)
    obtain ⟨as, last, hsource⟩ := h.entryAt_iff.mp ha
    -- no entry of a source precedes the popped one
    have hfirst : ∀ p ∈ sources, ∀ c ∈ p.entries, ¬ InternalLess c a := by
      intro p hp c hc hca
      obtain ⟨j, hj⟩ := List.mem_iff_getElem?.mp hp
      obtain ⟨b, bs, hbs⟩ := List.exists_cons_of_ne_nil (List.ne_nil_of_mem hc)
      have hb : entryAt m.inputs j = some b :=
        h.entryAt_iff.mpr ⟨bs, p.failure, by rw [hj, ← hbs]⟩
      have hnot := least_le hleast ((h.heap_iff j).mpr (by rw [hb]; rfl)) ha hb hall
      rw [hbs] at hc
      rcases List.mem_cons.mp hc with rfl | hc
      · exact hnot hca
      · have hpord := hord p hp
        rw [hbs] at hpord
        exact hnot (((List.pairwise_cons.mp hpord).1 c hc).trans hca)
    by_cases hdup : ∃ j ∈ m.heap.erase i, ∃ other ∈ entryAt m.inputs j,
        other.userKey = a.userKey ∧ other.sequence = a.sequence
    · refine .inr (.inl ⟨?_, ?_⟩)
      · simp only [MergingIterator.selectCurrent, hleast, ha]
        rw [if_pos hdup]
        rfl
      · obtain ⟨j, hj, b, hb, hsame⟩ := hdup
        obtain ⟨hji, -⟩ := h.heap_nodup.mem_erase_iff.mp hj
        obtain ⟨bs, lb, hsourceb⟩ := h.entryAt_iff.mp hb
        have hba : SameVersion a b := SameVersion.symm hsame
        exact .duplicate (Ne.symm hji) hsource hsourceb hba hfirst
    · refine .inr (.inr ⟨i, a, as, last, hsource, fun j p hji hj c hc => ?_, ?_⟩)
      · by_contra hnot
        have hca := hfirst p (List.mem_of_getElem? hj) c hc
        -- then the front of `p` is the version of `a`
        obtain ⟨b, bs, hbs⟩ := List.exists_cons_of_ne_nil (List.ne_nil_of_mem hc)
        have hb : entryAt m.inputs j = some b :=
          h.entryAt_iff.mpr ⟨bs, p.failure, by rw [hj, ← hbs]⟩
        have hjheap : j ∈ m.heap.erase i :=
          h.heap_nodup.mem_erase_iff.mpr ⟨hji, (h.heap_iff j).mpr (by rw [hb]; rfl)⟩
        have hba := hfirst p (List.mem_of_getElem? hj) b (by rw [hbs]; exact List.mem_cons_self)
        have hsame : ¬ SameVersion b a := fun hsame => hdup ⟨j, hjheap, b, hb, hsame⟩
        have hab : InternalLess a b := (InternalLess.total_of_ne hsame).resolve_left hba
        rw [hbs] at hc
        rcases List.mem_cons.mp hc with rfl | hc
        · exact hnot hab
        · have hpord := hord p (List.mem_of_getElem? hj)
          rw [hbs] at hpord
          exact hnot (hab.trans ((List.pairwise_cons.mp hpord).1 c hc))
      · have hprevious : m.previous ≠ some (a.userKey, a.sequence) :=
          h.previous i a ((holds_iff hsource).mpr List.mem_cons_self)
        simp only [MergingIterator.selectCurrent, hleast, ha]
        rw [if_neg hdup, if_neg hprevious]
        rfl

theorem movedProduces_okay (h : m.status.ok = true) {out : List InternalEntry}
    {failure : Option Status} :
    MovedProduces Stuck (Status.okay, m) out failure ↔ Produces Stuck m out failure := by
  have hstatus : (InternalIterator.status m).ok = true := h
  have hmoved : moved (Status.okay, m) = .ok m := by simp [moved, hstatus]
  unfold MovedProduces
  rw [hmoved]

/-- The state behind the `Next` of the winner. -/
def moveWinner (m : MergingIterator ι) (i : ℕ) (a : InternalEntry) (it' : ι) : MergingIterator ι :=
  { m with
    inputs := m.inputs.set i it'
    heap := if (InternalIterator.entry? it').isSome then m.heap.erase i ++ [i] else m.heap.erase i
    winner := none
    previous := some (a.userKey, a.sequence) }

theorem next_won (h : m.status.ok = true) {i : ℕ} {a : InternalEntry} {it : ι}
    (hit : m.inputs[i]? = some it) :
    MergingIterator.next (m.won i a) =
      match moved (InternalIterator.next it) with
      | .error s => (m.won i a).setError s
      | .ok it' => (m.moveWinner i a it').selectCurrent := by
  rw [MergingIterator.next, if_neg (by simp [won, h])]
  simp only [won, Option.bind_some, hit, Option.map_some]
  rfl

theorem PendingMerge.advance (h : PendingMerge m sources) {i : ℕ} {a : InternalEntry}
    {as : List InternalEntry} {last : Option Status} {it' : ι}
    (hsource : sources[i]? = some ⟨a :: as, last⟩)
    (hfirst : ∀ j p, j ≠ i → sources[j]? = some p → ∀ c ∈ p.entries, InternalLess a c)
    (hord : ∀ p ∈ sources, Ordered p.entries) (hproduces : Produces (fun _ _ => True) it' as last) :
    PendingMerge (m.moveWinner i a it') (sources.set i ⟨as, last⟩) := by
  have hlt : i < m.inputs.length := by
    rw [h.inputs.length_eq]
    exact (List.getElem?_eq_some_iff.mp hsource).1
  have hentry : ∀ j, entryAt (m.inputs.set i it') j =
      if j = i then InternalIterator.entry? it' else entryAt m.inputs j := by
    intro j
    rw [entryAt, List.getElem?_set]
    by_cases hji : j = i
    · subst hji
      simp [hlt]
    · rw [if_neg (Ne.symm hji), if_neg hji]
      rfl
  have hnotin : i ∉ m.heap.erase i := fun hi => (h.heap_nodup.mem_erase_iff.mp hi).1 rfl
  unfold moveWinner
  refine ⟨h.status_ok, rfl, forall₂_set h.inputs hproduces i, fun j => ?_, ?_, fun j x hx => ?_⟩
  · simp only [hentry]
    by_cases hji : j = i
    · subst hji
      rw [if_pos rfl]
      split
      · rename_i hsome
        simp [hsome]
      · rename_i hnone
        simp [hnone, hnotin]
    · rw [if_neg hji, ← h.heap_iff j]
      split <;> simp [hji, h.heap_nodup.mem_erase_iff]
  · split
    · exact List.nodup_append.mpr ⟨h.heap_nodup.erase i, by simp,
        fun x hx y hy hxy => hnotin (by rwa [hxy, List.mem_singleton.mp hy] at hx)⟩
    · exact h.heap_nodup.erase i
  · simp only [ne_eq, Option.some.injEq, Prod.mk.injEq, not_and]
    intro hk hs
    have := (less_of_holds hsource hfirst hord hx).sequence_lt hk
    omega

/-- The iterator puts out a merge of what its inputs produce. -/
theorem PendingMerge.produces (h : PendingMerge m sources)
    (hord : ∀ p ∈ sources, Ordered p.entries) :
    ∃ out failure, Merges sources out failure ∧ MovedProduces Stuck m.selectCurrent out failure := by
  induction hn : (lists sources).flatten.length using Nat.strong_induction_on
    generalizing m sources with
  | _ n ih =>
    subst hn
    rcases h.select hord with
      ⟨hselect, hall⟩ | ⟨hselect, hmerges⟩ | ⟨i, a, as, last, hsource, hfirst, hselect⟩
    · rw [hselect]
      refine ⟨[], none, .ends hall, (movedProduces_okay h.status_ok).mpr ⟨?_, h.status_ok, rfl⟩⟩
      show MergingIterator.entry? m = none
      simp [MergingIterator.entry?, h.winner_none]
    · rw [hselect]
      exact ⟨[], some duplicateVersion, hmerges, movedProduces_setError rfl⟩
    · obtain ⟨it, hit, hproduces⟩ := forall₂_getElem?
        (R := fun (p : MergeSource) it => Produces (fun _ _ => True) it p.entries p.failure)
        h.inputs.flip hsource
      obtain ⟨hentry, -, hmoved⟩ := hproduces
      have hselected : ∀ {out failure}, MovedProduces Stuck (MergingIterator.next (m.won i a)) out
          failure → MovedProduces Stuck m.selectCurrent (a :: out) failure := by
        intro out failure hnext
        have hok : (m.won i a).status.ok = true := h.status_ok
        rw [hselect, movedProduces_okay hok, produces_cons]
        refine ⟨?_, hok, hnext⟩
        show MergingIterator.entry? (m.won i a) = some a
        rw [MergingIterator.entry?, if_pos hok]
        exact h.entryAt_iff.mpr ⟨as, last, hsource⟩
      have hnext := next_won (a := a) h.status_ok hit
      cases hresult : moved (InternalIterator.next it) with
      | error s =>
        rw [hresult] at hmoved hnext
        obtain ⟨rfl, rfl, -⟩ := hmoved
        refine ⟨[a], some s, .fails hsource hfirst, hselected ?_⟩
        rw [hnext]
        exact movedProduces_setError (moved_eq_error hresult)
      | ok it' =>
        rw [hresult] at hmoved hnext
        have hmore : as ≠ [] ∨ last = none := by
          cases as with
          | nil => exact .inr hmoved.2.2
          | cons b bs => exact .inl (by simp)
        have hord' : ∀ p ∈ sources.set i ⟨as, last⟩, Ordered p.entries := by
          intro p hp
          rcases List.mem_or_eq_of_mem_set hp with hp | rfl
          · exact hord p hp
          · exact (List.pairwise_cons.mp (hord _ (List.mem_of_getElem? hsource))).2
        have hshorter : (lists (sources.set i ⟨as, last⟩)).flatten.length <
            (lists sources).flatten.length := by
          have hget : (lists sources)[i]? = some (a :: as) := by simp [hsource]
          have hperm := (flatten_set_perm hget).length_eq
          have hset : lists (sources.set i ⟨as, last⟩) = (lists sources).set i as := List.map_set
          rw [List.length_cons] at hperm
          rw [hset]
          omega
        obtain ⟨out, failure, hmerges, hproduces⟩ := ih _ hshorter
          (h.advance hsource hfirst hord hmoved) hord' rfl
        refine ⟨a :: out, failure, .takes hsource hmore hfirst hmerges, hselected ?_⟩
        rw [hnext]
        exact hproduces

/-- What an input produces from `target` on. -/
def SeekProduces (it : ι) (target : Bytes) (p : MergeSource) : Prop :=
  MovedProduces (fun _ _ => True) (InternalIterator.seek it target) p.entries p.failure

/-- Every input is sought, or one of the seeks fails. -/
theorem seekInputs_cases {inputs : List ι} {target : Bytes}
    (h : List.Forall₂ (fun it p => SeekProduces it target p) inputs sources) :
    (∃ inputs', seekInputs target inputs = .ok inputs' ∧
      List.Forall₂ (fun it p => Produces (fun _ _ => True) it p.entries p.failure) inputs' sources) ∨
    ∃ s, seekInputs target inputs = .error s ∧ s.ok = false ∧
      ∃ p ∈ sources, p.failure = some s ∧ p.entries = [] := by
  induction h with
  | nil => exact .inl ⟨[], rfl, .nil⟩
  | @cons it p inputs sources hseek _ ih =>
    unfold SeekProduces MovedProduces at hseek
    cases hmoved : moved (InternalIterator.seek it target) with
    | error s =>
      rw [hmoved] at hseek
      refine .inr ⟨s, ?_, moved_eq_error hmoved, p, List.mem_cons_self, hseek.2.1, hseek.1⟩
      simp only [seekInputs, hmoved]
    | ok it' =>
      rw [hmoved] at hseek
      rcases ih with ⟨inputs', hinputs, hall⟩ | ⟨s, hs, hok, q, hq, hfails⟩
      · exact .inl ⟨it' :: inputs', by simp only [seekInputs, hmoved, hinputs], .cons hseek hall⟩
      · exact .inr ⟨s, by simp only [seekInputs, hmoved, hs], hok, q, List.mem_cons_of_mem _ hq, hfails⟩

/-- What comes out of `NewMergingIterator`, which fails when the first seek does. -/
def Merged (inputs : List ι) (out : List InternalEntry) (failure : Option Status) : Prop :=
  match newMergingIterator inputs with
  | .ok m => Produces Stuck m out failure
  | .error s => out = [] ∧ failure = some s

/-- `NewMergingIterator` returns what its seek to the empty key leads to. -/
theorem merged_of_seek {inputs : List ι} {out : List InternalEntry} {failure : Option Status}
    (hstatus : (MergingIterator.seek (ι := ι) ⟨inputs, [], none, none, .okay⟩ []).1.ok = true →
      (MergingIterator.seek (ι := ι) ⟨inputs, [], none, none, .okay⟩ []).2.status.ok = true)
    (h : MovedProduces Stuck (MergingIterator.seek (ι := ι) ⟨inputs, [], none, none, .okay⟩ []) out
      failure) : Merged inputs out failure := by
  unfold Merged newMergingIterator
  unfold MovedProduces moved at h
  generalize MergingIterator.seek (ι := ι) ⟨inputs, [], none, none, .okay⟩ [] = result at h hstatus
  obtain ⟨status, m⟩ := result
  by_cases hok : status.ok = true
  · have hm : (InternalIterator.status m).ok = true := hstatus hok
    simpa [hok, hm] using h
  · simp only [hok] at h ⊢
    exact ⟨h.1, h.2.1⟩

/-- `NewMergingIterator` puts out a merge of what its inputs produce, unless one fails at once. -/
theorem newMergingIterator_merges {inputs : List ι}
    (h : List.Forall₂ (fun it p => SeekProduces it [] p) inputs sources)
    (hord : ∀ p ∈ sources, Ordered p.entries) :
    (∃ out failure, Merged inputs out failure ∧ Merges sources out failure ∧
      ∀ p ∈ sources, p.failure ≠ none → p.entries ≠ []) ∨
    ∃ s, Merged inputs [] (some s) ∧ ∃ p ∈ sources, p.failure = some s := by
  rcases seekInputs_cases h with ⟨inputs', hinputs, hall⟩ | ⟨s, hs, hok, p, hp, hfails, -⟩
  · left
    have hseek : MergingIterator.seek (ι := ι) ⟨inputs, [], none, none, .okay⟩ [] =
        selectCurrent ⟨inputs', validInputs inputs', none, none, .okay⟩ := by
      rw [MergingIterator.seek, hinputs]
      rfl
    have hpending : PendingMerge (ι := ι) ⟨inputs', validInputs inputs', none, none, .okay⟩ sources := by
      refine ⟨rfl, rfl, hall, fun i => ?_, List.Nodup.filter _ List.nodup_range,
        fun _ _ _ hnone => by cases hnone⟩
      simp only [validInputs, List.mem_filter, List.mem_range]
      exact ⟨fun h => h.2, fun h => ⟨entryAt_isSome_lt h, h⟩⟩
    obtain ⟨out, failure, hmerges, hproduces⟩ := hpending.produces hord
    refine ⟨out, failure, merged_of_seek ?_ ?_, hmerges, fun p hp hf hnil => ?_⟩
    · rw [hseek]
      exact status_selectCurrent rfl
    · rw [hseek]
      exact hproduces
    · obtain ⟨i, hi⟩ := List.mem_iff_getElem?.mp hp
      obtain ⟨it, -, hp⟩ := forall₂_getElem?
        (R := fun (p : MergeSource) it => Produces (fun _ _ => True) it p.entries p.failure)
        hall.flip hi
      rw [hnil] at hp
      exact hf hp.2.2
  · right
    have hseek : MergingIterator.seek (ι := ι) ⟨inputs, [], none, none, .okay⟩ [] =
        setError ⟨inputs, [], none, none, .okay⟩ s := by
      rw [MergingIterator.seek, hs]
      rfl
    refine ⟨s, merged_of_seek ?_ ?_, p, hp, hfails⟩
    · rw [hseek]
      intro hsok
      rw [show (setError (ι := ι) ⟨inputs, [], none, none, .okay⟩ s).1 = s from rfl, hok] at hsok
      cases hsok
    · rw [hseek]
      exact movedProduces_setError hok

end MergingIterator

/-- The merge of ordered inputs. Without failures: when no version is held by two inputs, draining
the iterator yields every entry once and in order; otherwise it yields exactly the entries before
the first version that is held twice and then stays in a corruption, which `NewMergingIterator`
itself returns when there are none. With failing inputs it yields the start of the correct merge of
whatever the inputs would have yielded, and then stays in the error. -/
theorem merging_iterator_is_exact {ι : Type} [InternalIterator ι] {inputs : List ι}
    {sources : List MergeSource}
    (h : List.Forall₂ (fun it p => MergingIterator.SeekProduces it [] p) inputs sources)
    (hord : ∀ p ∈ sources, Ordered p.entries) :
    ((∀ p ∈ sources, p.failure = none) → (∀ d, ¬ Duplicated (Merges.lists sources) d) →
      ∃ out, Ordered out ∧ out.Perm (Merges.lists sources).flatten ∧
        MergingIterator.Merged inputs out none) ∧
    ((∀ p ∈ sources, p.failure = none) → (∃ d, Duplicated (Merges.lists sources) d) →
      ∃ out, CorrectMerge (Merges.lists sources) out ∧
        MergingIterator.Merged inputs out (some duplicateVersion)) ∧
    ((∃ p ∈ sources, p.failure ≠ none) →
      ∃ out s, MergingIterator.Merged inputs out (some s) ∧ Ordered out ∧
        ((∃ p ∈ sources, p.failure = some s) ∨
          s = duplicateVersion ∧ ∃ d, Duplicated (Merges.lists sources) d) ∧
        ∀ fulls all, List.Forall₂ Merges.Extends sources fulls → CorrectMerge fulls all →
          out <+: all) := by
  have hordered : ∀ es ∈ Merges.lists sources, Ordered es := by
    intro es hes
    obtain ⟨p, hp, rfl⟩ := List.mem_map.mp hes
    exact hord p hp
  rcases MergingIterator.newMergingIterator_merges h hord with
    ⟨out, failure, hmerged, hmerges, hne⟩ | ⟨s, hmerged, p, hp, hps⟩
  · have hsound := hmerges.sound hord hne
    refine ⟨fun hnone hsingle => ?_, fun hnone hdup => ?_, fun hfails => ?_⟩
    · obtain ⟨hcorrect, ⟨rfl, -⟩ | ⟨-, d, hd⟩⟩ := hsound.correct hnone
      · refine ⟨out, hcorrect.ordered, ?_, hmerged⟩
        refine (List.perm_ext_iff_of_nodup hcorrect.ordered.nodup
          (Merges.nodup_flatten hordered hsingle)).mpr fun e => ?_
        rw [hcorrect.mem_iff]
        exact ⟨fun he => he.1, fun he => ⟨he, fun d hd => absurd hd (hsingle d)⟩⟩
      · exact absurd hd (hsingle d)
    · obtain ⟨hcorrect, ⟨-, hsingle⟩ | ⟨rfl, -⟩⟩ := hsound.correct hnone
      · obtain ⟨d, hd⟩ := hdup
        exact absurd hd (hsingle d)
      · exact ⟨out, hcorrect, hmerged⟩
    · obtain ⟨p, hp, hfail⟩ := hfails
      obtain ⟨s, rfl⟩ := Option.ne_none_iff_exists'.mp (hsound.failing p hp hfail).1
      refine ⟨out, s, hmerged, hsound.ordered, ?_, fun _ _ hext hall => hsound.isPrefix hext hall⟩
      rcases hsound.reason s rfl with hsource | ⟨rfl, d, hd, -⟩
      · exact .inl hsource
      · exact .inr ⟨rfl, d, hd⟩
  · refine ⟨fun hnone => ?_, fun hnone => ?_, fun _ => ⟨[], s, hmerged, .nil, .inl ⟨p, hp, hps⟩,
      fun _ _ _ _ => List.nil_prefix⟩⟩
    · rw [hnone p hp] at hps
      cases hps
    · rw [hnone p hp] at hps
      cases hps

/-- Two captured vectors that share a version: the entry before it comes out. -/
theorem merging_iterator_is_exact_duplicate :
    ∃ (inputs : List VectorIterator) (a b : InternalEntry), a ≠ b ∧
      ∃ out, CorrectMerge [[a, b], [b]] out ∧
        MergingIterator.Merged inputs out (some duplicateVersion) := by
  let a : InternalEntry := ⟨[97], 2, .value, [1]⟩
  let b : InternalEntry := ⟨[98], 1, .value, [2]⟩
  let first : VectorIterator := ⟨[a, b], [], [a, b]⟩
  let second : VectorIterator := ⟨[b], [], [b]⟩
  have hseek : ∀ it : VectorIterator, Ordered it.entries → it.limit = [] →
      MergingIterator.SeekProduces it [] ⟨it.entries, none⟩ := by
    intro it hord hlimit
    obtain ⟨it', hmoved, hyields⟩ := it.seekYields hord []
    have hall : it.entries.filter (fun e => MemTable.inRange [] it.limit e.userKey) = it.entries := by
      refine List.filter_eq_self.mpr fun e _ => ?_
      simp only [MemTable.inRange, MemTable.belowEnd, hlimit, true_or, decide_true, Bool.and_true,
        decide_eq_true_eq]
      exact not_lt.mp (List.not_lt_nil _)
    rw [hall] at hyields
    unfold MergingIterator.SeekProduces InternalIterator.MovedProduces
    rw [hmoved]
    exact hyields.produces
  have hfirst : Ordered [a, b] := by decide
  have hsecond : Ordered [b] := by decide
  let sources : List MergeSource := [⟨[a, b], none⟩, ⟨[b], none⟩]
  have hsources : List.Forall₂ (fun it p => MergingIterator.SeekProduces it [] p) [first, second]
      sources := .cons (hseek first hfirst rfl) (.cons (hseek second hsecond rfl) .nil)
  have hord : ∀ p ∈ sources, Ordered p.entries := by simpa [sources] using ⟨hfirst, hsecond⟩
  have hexact := (merging_iterator_is_exact hsources hord).2.1 (by simp [sources])
  have hdup : Duplicated [[a, b], [b]] b :=
    ⟨0, 1, b, b, by decide, ⟨_, rfl, by simp⟩, ⟨_, rfl, by simp⟩, ⟨rfl, rfl⟩, ⟨rfl, rfl⟩⟩
  exact ⟨[first, second], a, b, by decide, hexact ⟨b, hdup⟩⟩

end TinyLsm
