import TinyLsm.Db.Building
import TinyLsm.Db.Schedule
import TinyLsm.Sstable.RoundTrip
import Mathlib.Data.Finset.Max

/-!
# What a compaction keeps

The retention loop of `CompactTablePrefix` against the three rules it implements, and what a read
sees of the entries before and after. The rules are about the versions of the inputs as a set; the
loop streams them in order with one flag.
-/

namespace TinyLsm

/-! ## The rules -/

/-- The newest version of its key, among those up to a sequence. -/
def NewestUpTo (es : List InternalEntry) (sequence : ℕ) (e : InternalEntry) : Prop :=
  e ∈ es ∧ e.sequence ≤ sequence ∧
    ∀ e' ∈ es, e'.userKey = e.userKey → e'.sequence ≤ sequence → e'.sequence ≤ e.sequence

/-- The newest version of its key. -/
def Newest (es : List InternalEntry) (e : InternalEntry) : Prop :=
  e ∈ es ∧ ∀ e' ∈ es, e'.userKey = e.userKey → e'.sequence ≤ e.sequence

/-- The versions of the inputs that a compaction keeps; `oldest` is the oldest active snapshot. -/
def Retained (coversAll : Bool) (oldest : Option ℕ) (es : List InternalEntry) (e : InternalEntry) :
    Prop :=
  match coversAll, oldest with
  | false, _ => e ∈ es
  | true, none => Newest es e ∧ e.type = .value
  | true, some w => (e ∈ es ∧ w < e.sequence) ∨ NewestUpTo es w e

instance (es : List InternalEntry) (sequence : ℕ) (e : InternalEntry) :
    Decidable (NewestUpTo es sequence e) :=
  inferInstanceAs (Decidable (_ ∧ _ ∧ _))

instance (es : List InternalEntry) (e : InternalEntry) : Decidable (Newest es e) :=
  inferInstanceAs (Decidable (_ ∧ _))

instance (coversAll : Bool) (oldest : Option ℕ) (es : List InternalEntry) (e : InternalEntry) :
    Decidable (Retained coversAll oldest es e) :=
  match coversAll, oldest with
  | false, _ => inferInstanceAs (Decidable (e ∈ es))
  | true, none => inferInstanceAs (Decidable (Newest es e ∧ e.type = .value))
  | true, some w =>
    inferInstanceAs (Decidable ((e ∈ es ∧ w < e.sequence) ∨ NewestUpTo es w e))

/-- A read of `key` at `sequence` returns `value`. -/
def VisibleValue (es : List InternalEntry) (key : Bytes) (sequence : ℕ) (value : Bytes) : Prop :=
  ∃ e, NewestUpTo es sequence e ∧ e.userKey = key ∧ e.type = .value ∧ e.value = value

/-- The sequences at which a reader may still come: from the oldest active snapshot on, or from the
newest version on when there is none. -/
def ReadableAt (oldest : Option ℕ) (es : List InternalEntry) (sequence : ℕ) : Prop :=
  match oldest with
  | some w => w ≤ sequence
  | none => ∀ e ∈ es, e.sequence ≤ sequence

theorem NewestUpTo.congr {es es' : List InternalEntry} (h : ∀ e, e ∈ es ↔ e ∈ es') {s : ℕ}
    {e : InternalEntry} : NewestUpTo es s e ↔ NewestUpTo es' s e := by
  simp only [NewestUpTo, h]

/-- Some version is the newest one up to a sequence. -/
theorem exists_newestUpTo {es : List InternalEntry} {s : ℕ} {e : InternalEntry} (he : e ∈ es)
    (hs : e.sequence ≤ s) : ∃ e', NewestUpTo es s e' ∧ e'.userKey = e.userKey := by
  let versions := es.toFinset.filter fun e' => e'.userKey = e.userKey ∧ e'.sequence ≤ s
  obtain ⟨e', he', hmax⟩ := versions.exists_max_image InternalEntry.sequence
    ⟨e, by simp [versions, he, hs]⟩
  simp only [versions, Finset.mem_filter, List.mem_toFinset] at he' hmax
  refine ⟨e', ⟨he'.1, he'.2.2, fun e'' hmem hkey hle => ?_⟩, he'.2.1⟩
  exact hmax e'' ⟨hmem, hkey.trans he'.2.1, hle⟩

/-- The rules leave every read as it was. -/
theorem visibleValue_retained {coversAll : Bool} {oldest : Option ℕ} {es out : List InternalEntry}
    (hout : ∀ e, e ∈ out ↔ Retained coversAll oldest es e) {key value : Bytes} {s : ℕ}
    (hs : ReadableAt oldest es s) :
    VisibleValue es key s value ↔ VisibleValue out key s value := by
  have hsub : ∀ e ∈ out, e ∈ es := by
    intro e he
    have hr := (hout e).mp he
    cases coversAll with
    | false => exact hr
    | true =>
      cases oldest with
      | none => exact hr.1.1
      | some w => exact hr.elim And.left And.left
  constructor
  · rintro ⟨e, hnewest, hkey, htype, hvalue⟩
    obtain ⟨hmem, hle, hmax⟩ := hnewest
    refine ⟨e, ⟨(hout e).mpr ?_, hle, fun e' he' => hmax e' (hsub e' he')⟩, hkey, htype, hvalue⟩
    cases coversAll with
    | false => exact hmem
    | true =>
      cases oldest with
      | none => exact ⟨⟨hmem, fun e' he' hk => hmax e' he' hk (hs e' he')⟩, htype⟩
      | some w =>
        by_cases hw : w < e.sequence
        · exact .inl ⟨hmem, hw⟩
        · exact .inr ⟨hmem, not_lt.mp hw, fun e' he' hk hle' => hmax e' he' hk (hle'.trans hs)⟩
  · rintro ⟨e, ⟨hmem, hle, hmax⟩, hkey, htype, hvalue⟩
    refine ⟨e, ⟨hsub e hmem, hle, fun e' he' hk hle' => ?_⟩, hkey, htype, hvalue⟩
    cases coversAll with
    | false => exact hmax e' ((hout e').mpr he') hk hle'
    | true =>
      cases oldest with
      | none => exact ((hout e).mp hmem).1.2 e' he' hk
      | some w =>
        -- below the watermark the newest version stands for all others
        by_cases hw : w < e'.sequence
        · exact hmax e' ((hout e').mpr (.inl ⟨he', hw⟩)) hk hle'
        · obtain ⟨n, hn, hnkey⟩ := exists_newestUpTo he' (not_lt.mp hw)
          have hkept := hmax n ((hout n).mpr (.inr hn)) (hnkey.trans hk) (hn.2.1.trans hs)
          exact (hn.2.2 e' he' hnkey.symm (not_lt.mp hw)).trans hkept

/-! ## The loop -/

theorem retainEntries_sublist (coversAll : Bool) (w : ℕ) (previous : Option Bytes) (retained : Bool)
    (es : List InternalEntry) : (retainEntries coversAll w previous retained es).Sublist es := by
  induction es generalizing previous retained with
  | nil => exact .slnil
  | cons e es ih =>
    unfold retainEntries
    dsimp only
    split
    · exact (ih _ _).cons_cons e
    split
    · split
      · exact (ih _ _).cons_cons e
      · exact (ih _ _).cons e
    split
    · exact (ih _ _).cons_cons e
    split
    · exact (ih _ _).cons_cons e
    · exact (ih _ _).cons e

theorem retainEntries_all (w : ℕ) (previous : Option Bytes) (retained : Bool)
    (es : List InternalEntry) : retainEntries false w previous retained es = es := by
  induction es generalizing previous retained with
  | nil => rfl
  | cons e es ih => simp only [retainEntries, if_true, ih]

section
variable {e : InternalEntry} {es : List InternalEntry} {previous : Option Bytes} {retained : Bool}

/-- The first entry of an ordered list is the newest of its key. -/
theorem newest_head {a : InternalEntry} (hord : Ordered (a :: es)) : Newest (a :: es) a := by
  refine ⟨List.mem_cons_self, fun e' he' hkey => ?_⟩
  rcases List.mem_cons.mp he' with rfl | he'
  · exact le_rfl
  · exact (((List.pairwise_cons.mp hord).1 e' he').sequence_lt hkey.symm).le

theorem newest_cons_iff {a : InternalEntry} (hord : Ordered (a :: es)) (he : e ∈ es) :
    Newest (a :: es) e ↔ Newest es e ∧ a.userKey ≠ e.userKey := by
  constructor
  · rintro ⟨-, hmax⟩
    refine ⟨⟨he, fun e' he' => hmax e' (List.mem_cons_of_mem _ he')⟩, fun hkey => ?_⟩
    have hlt := ((List.pairwise_cons.mp hord).1 e he).sequence_lt hkey
    have hle := hmax a List.mem_cons_self hkey
    omega
  · rintro ⟨⟨-, hmax⟩, hne⟩
    refine ⟨List.mem_cons_of_mem _ he, fun e' he' hkey => ?_⟩
    rcases List.mem_cons.mp he' with rfl | he'
    · exact (hne hkey).elim
    · exact hmax e' he' hkey

/-- The first entry of an ordered list that is old enough is the newest such entry of its key. -/
theorem newestUpTo_head {a : InternalEntry} {s : ℕ} (hord : Ordered (a :: es))
    (ha : a.sequence ≤ s) : NewestUpTo (a :: es) s a :=
  ⟨List.mem_cons_self, ha, fun e' he' hkey _ => (newest_head hord).2 e' he' hkey⟩

theorem newestUpTo_cons_iff {a : InternalEntry} {s : ℕ} (hord : Ordered (a :: es)) (he : e ∈ es) :
    NewestUpTo (a :: es) s e ↔
      NewestUpTo es s e ∧ ¬ (a.sequence ≤ s ∧ a.userKey = e.userKey) := by
  constructor
  · rintro ⟨-, hle, hmax⟩
    refine ⟨⟨he, hle, fun e' he' => hmax e' (List.mem_cons_of_mem _ he')⟩, fun ⟨ha, hkey⟩ => ?_⟩
    have hlt := ((List.pairwise_cons.mp hord).1 e he).sequence_lt hkey
    have hle := hmax a List.mem_cons_self hkey ha
    omega
  · rintro ⟨⟨-, hle, hmax⟩, hne⟩
    refine ⟨List.mem_cons_of_mem _ he, hle, fun e' he' hkey hle' => ?_⟩
    rcases List.mem_cons.mp he' with rfl | he'
    · exact (hne ⟨hle', hkey⟩).elim
    · exact hmax e' he' hkey hle'

/-- The key the loop has just left is not above the entries to come. -/
def KeyBefore (previous : Option Bytes) (es : List InternalEntry) : Prop :=
  ∀ k ∈ previous, ∀ e ∈ es, k ≤ e.userKey

theorem KeyBefore.tail {a : InternalEntry} (hord : Ordered (a :: es)) :
    KeyBefore (some a.userKey) es := by
  intro k hk e he
  obtain rfl := Option.some.inj hk
  exact ((List.pairwise_cons.mp hord).1 e he).key_le

/-- Behind an entry the flag says the same of a later entry as before it. -/
theorem KeyBefore.flag_iff {a : InternalEntry} (h : KeyBefore previous (a :: es))
    (hord : Ordered (a :: es)) (he : e ∈ es) :
    (retained && decide (previous = some a.userKey)) = true ∧ a.userKey = e.userKey ↔
      retained = true ∧ previous = some e.userKey := by
  have hle := ((List.pairwise_cons.mp hord).1 e he).key_le
  simp only [Bool.and_eq_true, decide_eq_true_eq]
  constructor
  · rintro ⟨⟨hretained, hprevious⟩, hkey⟩
    exact ⟨hretained, hkey ▸ hprevious⟩
  · rintro ⟨hretained, hprevious⟩
    have hback := h _ hprevious a List.mem_cons_self
    have hkey := le_antisymm hle hback
    exact ⟨⟨hretained, hkey ▸ hprevious⟩, hkey⟩

/-- Without a snapshot: the first entry of a key is its newest version. -/
theorem mem_retainEntries_newest (hord : Ordered es) (hprevious : KeyBefore previous es) :
    e ∈ retainEntries true noSnapshot previous retained es ↔
      Newest es e ∧ e.type = .value ∧ ¬ (retained = true ∧ previous = some e.userKey) := by
  induction es generalizing previous retained with
  | nil => simp [retainEntries, Newest]
  | cons a es ih =>
    have htail := (List.pairwise_cons.mp hord).2
    have hrec : e ∈ retainEntries true noSnapshot (some a.userKey) true es ↔ _ :=
      ih htail (KeyBefore.tail hord)
    have hlater : ∀ e ∈ es, Newest (a :: es) e ↔ _ := fun e => newest_cons_iff hord
    have hrest : e ∈ retainEntries true noSnapshot (some a.userKey) true es ↔
        e ∈ es ∧ Newest (a :: es) e ∧ e.type = .value := by
      rw [hrec]
      constructor
      · rintro ⟨hnewest, htype, hkey⟩
        exact ⟨hnewest.1, (hlater e hnewest.1).mpr ⟨hnewest, fun h => hkey ⟨rfl, congrArg some h⟩⟩,
          htype⟩
      · rintro ⟨hmem, hnewest, htype⟩
        obtain ⟨hnewest, hne⟩ := (hlater e hmem).mp hnewest
        exact ⟨hnewest, htype, fun h => hne (Option.some.inj h.2)⟩
    have hflag : ∀ e ∈ es, Newest (a :: es) e → ¬ (retained = true ∧ previous = some e.userKey) := by
      intro e he hnewest hflagged
      exact ((hlater e he).mp hnewest).2 ((hprevious.flag_iff hord he).mpr hflagged).2
    simp only [retainEntries, Bool.true_eq_false, if_false, if_true]
    split
    · rename_i hkeep
      rw [List.mem_cons, hrest]
      constructor
      · rintro (rfl | ⟨hmem, hnewest, htype⟩)
        · refine ⟨newest_head hord, hkeep.2, fun hflagged => ?_⟩
          have := hkeep.1
          simp [hflagged.1, hflagged.2] at this
        · exact ⟨hnewest, htype, hflag e hmem hnewest⟩
      · rintro ⟨hnewest, htype, -⟩
        rcases List.mem_cons.mp hnewest.1 with rfl | hmem
        · exact .inl rfl
        · exact .inr ⟨hmem, hnewest, htype⟩
    · rename_i hdrop
      rw [hrest]
      constructor
      · rintro ⟨hmem, hnewest, htype⟩
        exact ⟨hnewest, htype, hflag e hmem hnewest⟩
      · rintro ⟨hnewest, htype, hflagged⟩
        rcases List.mem_cons.mp hnewest.1 with rfl | hmem
        · exact (hdrop ⟨by simpa using hflagged, htype⟩).elim
        · exact ⟨hmem, hnewest, htype⟩

/-- With a snapshot: the entries above the watermark, and below it the first entry of a key. -/
theorem mem_retainEntries_upTo {w : ℕ} (hw : w ≠ noSnapshot) (hord : Ordered es)
    (hprevious : KeyBefore previous es) :
    e ∈ retainEntries true w previous retained es ↔
      (e ∈ es ∧ w < e.sequence) ∨
        (NewestUpTo es w e ∧ ¬ (retained = true ∧ previous = some e.userKey)) := by
  induction es generalizing previous retained with
  | nil => simp [retainEntries, NewestUpTo]
  | cons a es ih =>
    have htail := (List.pairwise_cons.mp hord).2
    have hrec : ∀ flag, e ∈ retainEntries true w (some a.userKey) flag es ↔ _ :=
      fun flag => ih htail (KeyBefore.tail hord)
    have hlater : ∀ e ∈ es, NewestUpTo (a :: es) w e ↔ _ := fun e => newestUpTo_cons_iff hord
    simp only [retainEntries, Bool.true_eq_false, if_false, hw]
    by_cases ha : w < a.sequence
    · -- above the watermark the entry is kept and the flag stays
      rw [if_pos ha, List.mem_cons, hrec]
      have hnot : ¬ NewestUpTo (a :: es) w a := fun h => absurd h.2.1 (not_le.mpr ha)
      constructor
      · rintro (rfl | ⟨hmem, hlt⟩ | ⟨hnewest, hflag⟩)
        · exact .inl ⟨List.mem_cons_self, ha⟩
        · exact .inl ⟨List.mem_cons_of_mem _ hmem, hlt⟩
        · refine .inr ⟨(hlater e hnewest.1).mpr ⟨hnewest, fun h => absurd h.1 (not_le.mpr ha)⟩, ?_⟩
          rw [← hprevious.flag_iff hord hnewest.1]
          exact fun h => hflag ⟨h.1, congrArg some h.2⟩
      · rintro (⟨hmem, hlt⟩ | ⟨hnewest, hflag⟩)
        · rcases List.mem_cons.mp hmem with rfl | hmem
          · exact .inl rfl
          · exact .inr (.inl ⟨hmem, hlt⟩)
        · rcases List.mem_cons.mp hnewest.1 with rfl | hmem
          · exact (hnot hnewest).elim
          · refine .inr (.inr ⟨((hlater e hmem).mp hnewest).1, ?_⟩)
            rw [← hprevious.flag_iff hord hmem] at hflag
            exact fun h => hflag ⟨h.1, Option.some.inj h.2⟩
    · rw [if_neg ha]
      rw [not_lt] at ha
      by_cases hflagged : retained = true ∧ previous = some a.userKey
      · -- the key has its version already
        have hflag : (retained && decide (previous = some a.userKey)) = true := by
          simp [hflagged.1, hflagged.2]
        rw [if_neg (by simp [hflag]), hflag, hrec]
        constructor
        · rintro (⟨hmem, hlt⟩ | ⟨hnewest, hkey⟩)
          · exact .inl ⟨List.mem_cons_of_mem _ hmem, hlt⟩
          · have hkey' : a.userKey ≠ e.userKey := fun h => hkey ⟨rfl, congrArg some h⟩
            refine .inr ⟨(hlater e hnewest.1).mpr ⟨hnewest, fun h => hkey' h.2⟩, fun h => hkey' ?_⟩
            exact Option.some.inj (hflagged.2.symm.trans h.2)
        · rintro (⟨hmem, hlt⟩ | ⟨hnewest, hfree⟩)
          · rcases List.mem_cons.mp hmem with rfl | hmem
            · omega
            · exact .inl ⟨hmem, hlt⟩
          · rcases List.mem_cons.mp hnewest.1 with rfl | hmem
            · exact (hfree hflagged).elim
            · refine .inr ⟨((hlater e hmem).mp hnewest).1, fun h => ?_⟩
              exact ((hlater e hmem).mp hnewest).2 ⟨ha, Option.some.inj h.2⟩
      · have hflag : (retained && decide (previous = some a.userKey)) = false := by
          simpa using hflagged
        rw [if_pos (by simp [hflag]), List.mem_cons, hrec]
        constructor
        · rintro (rfl | ⟨hmem, hlt⟩ | ⟨hnewest, hkey⟩)
          · exact .inr ⟨newestUpTo_head hord ha, hflagged⟩
          · exact .inl ⟨List.mem_cons_of_mem _ hmem, hlt⟩
          · have hkey' : a.userKey ≠ e.userKey := fun h => hkey ⟨rfl, congrArg some h⟩
            refine .inr ⟨(hlater e hnewest.1).mpr ⟨hnewest, fun h => hkey' h.2⟩, fun h => ?_⟩
            exact hkey' ((hprevious.flag_iff hord hnewest.1).mpr h).2
        · rintro (⟨hmem, hlt⟩ | ⟨hnewest, hfree⟩)
          · rcases List.mem_cons.mp hmem with rfl | hmem
            · omega
            · exact .inr (.inl ⟨hmem, hlt⟩)
          · rcases List.mem_cons.mp hnewest.1 with rfl | hmem
            · exact .inl rfl
            · obtain ⟨hnewest, hnot⟩ := (hlater e hmem).mp hnewest
              exact .inr (.inr ⟨hnewest, fun h => hnot ⟨ha, Option.some.inj h.2⟩⟩)

end

/-- The loop keeps what the rules say. -/
theorem mem_retainEntries {merged es : List InternalEntry} (hord : Ordered merged)
    (hperm : merged.Perm es) {snapshots : List ℕ} (hsnapshots : ∀ s ∈ snapshots, s < noSnapshot)
    (coversAll : Bool) (e : InternalEntry) :
    e ∈ retainEntries coversAll (oldestSnapshot snapshots) none false merged ↔
      Retained coversAll snapshots.min? es e := by
  have hmem : ∀ e, e ∈ merged ↔ e ∈ es := fun e => hperm.mem_iff
  have hbefore : KeyBefore none merged := by
    rintro k ⟨⟩
  cases coversAll with
  | false => rw [retainEntries_all, hmem, Retained]
  | true =>
    unfold oldestSnapshot
    cases hmin : snapshots.min? with
    | none =>
      simp only [Option.getD_none, mem_retainEntries_newest hord hbefore, Newest, hmem, Retained,
        Bool.false_eq_true, false_and, not_false_eq_true, and_true]
    | some w =>
      have hw := (hsnapshots w (List.min?_mem hmin)).ne
      simp only [Option.getD_some, mem_retainEntries_upTo hw hord hbefore, NewestUpTo, hmem, Retained,
        Bool.false_eq_true, false_and, not_false_eq_true, and_true]

/-! ## The inputs -/

/-- A read of the whole table returns the entries. -/
def Table.Holds (t : Table) (es : List InternalEntry) : Prop :=
  (∃ bss, t.reader.Valid bss ∧ bss.flatten = es) ∧ ∀ e ∈ es, e.sequence < 2 ^ 64

theorem Table.Holds.ordered {t : Table} {es : List InternalEntry} (h : t.Holds es) : Ordered es := by
  obtain ⟨⟨bss, hvalid, rfl⟩, -⟩ := h
  exact hvalid.ordered.flatten

theorem compactionInputs_eq {tables : List Table} {inputs : List (List InternalEntry)}
    (h : List.Forall₂ Table.Holds tables inputs) :
    ∃ its, compactionInputs tables = .ok its ∧
      List.Forall₂ (fun it es => InternalIterator.SeekYields it [] es) its inputs := by
  induction h with
  | nil => exact ⟨[], rfl, .nil⟩
  | @cons t es tables inputs ht _ ih =>
    obtain ⟨its, hits, hyields⟩ := ih
    obtain ⟨⟨bss, hvalid, rfl⟩, -⟩ := ht
    obtain ⟨it, hit, hsource, hlimit, hstatus, -⟩ :=
      @SSTableReader.Valid.newIterator _ _ hvalid [] [] (.inl rfl)
    have hseek := TableIterator.seekYields hvalid it hsource hstatus []
    have hall : ∀ e ∈ bss.flatten, MemTable.inRange [] it.limit e.userKey = true := by
      intro e _
      have hnil : [] ≤ e.userKey := not_lt.mp (List.not_lt_nil e.userKey)
      simp [MemTable.inRange, hlimit, MemTable.belowEnd, hnil]
    rw [List.filter_eq_self.mpr hall] at hseek
    exact ⟨it :: its, by simp only [compactionInputs, hit, hits], .cons hseek hyields⟩

/-- The merge of tables without a common version. -/
theorem mergedEntries_eq {tables : List Table} {inputs : List (List InternalEntry)}
    (h : List.Forall₂ Table.Holds tables inputs)
    (hdistinct : inputs.flatten.Pairwise fun a b =>
      ¬ (a.userKey = b.userKey ∧ a.sequence = b.sequence)) :
    ∃ merged, mergedEntries tables = .ok merged ∧ Ordered merged ∧ merged.Perm inputs.flatten := by
  obtain ⟨its, hits, hyields⟩ := compactionInputs_eq h
  have hord : ∀ es ∈ inputs, Ordered es := by
    intro es hes
    obtain ⟨t, -, ht⟩ := TableFile.forall₂_exists h.flip hes
    exact Table.Holds.ordered ht
  obtain ⟨merged, m, hmerged, hperm, hm, hy⟩ := newMergingIterator_distinct hyields hord hdistinct
  refine ⟨merged, ?_, hmerged, hperm⟩
  simp only [mergedEntries, hits, hm, hy.drain hy.length_le]

/-! ## The output -/

namespace Handle

/-- The output of a build under the lock is the table that was written. -/
theorem built_of_buildOutput {o : Options} {number : ℕ} {entries : List InternalEntry}
    {f : CompactFaults} {h h' : Handle} {out : Output}
    (hr : h.buildOutput o number entries f = (h', .ok out)) : out.Built o number entries := by
  have hrule := buildOutput_rule (fun phase h₁ => phase.Holds o number entries h₁.dir)
    (fun _ => True) (fun _ _ _ _ hb hp => hp.step hb) (fun _ _ _ => trivial) (fun _ _ => trivial) hr
    trivial
  exact hrule.1

/-- The installed tables behind a compaction. -/
theorem tables_of_commitCompaction {h h' : Handle} {job : CompactionJob}
    {replacement : Option Output} {fault : Option PublishFault} {fails : FileName → Bool}
    (hr : h.commitCompaction job replacement fault fails = (h', .okay)) :
    h'.tables = (replacement.map Output.table).toList ++ h.tables.drop job.metas.length := by
  rcases commitCompaction_cases hr with ⟨-, hfail⟩ | ⟨-, hfail, -⟩ | ⟨rfl, -⟩
  · cases hfail
  · cases hfail
  · obtain ⟨d, t, p, heq⟩ := h.installCompaction_eq (compactedManifest h.manifest job replacement)
      job replacement fails
    rw [heq]

/-- What the checks establish. -/
theorem compactionStatus_eq_none {o : Options} {h : Handle} {inputCount : ℕ} {background : Bool}
    (hstatus : h.compactionStatus o inputCount background = none) :
    inputCount ≤ h.tables.length ∧ h.manifest.liveTables.length = h.tables.length := by
  unfold compactionStatus at hstatus
  split at hstatus
  · cases hstatus
  split at hstatus
  · cases hstatus
  split at hstatus
  · cases hstatus
  omega

/-- The selected tables are as many as asked for. -/
theorem length_selectTables {o : Options} {h : Handle} {inputCount : ℕ} {background : Bool}
    (hstatus : h.compactionStatus o inputCount background = none) :
    (h.selectTables inputCount).metas.length = inputCount := by
  have := compactionStatus_eq_none hstatus
  simp only [selectTables, List.length_take]
  omega

/-- An explicit compaction that succeeds installs an output exactly when something is kept. -/
theorem compactTablePrefix_ok {o : Options} {h h' : Handle} {inputCount : ℕ} {f : CompactFaults}
    {merged : List InternalEntry} (hstatus : h.compactionStatus o inputCount false = none)
    (hmerged : mergedEntries (h.selectTables inputCount).tables = .ok merged)
    (hr : h.compactTablePrefix o inputCount f = (h', .okay)) :
    ∃ replacement : Option Output,
      h'.tables = (replacement.map Output.table).toList ++ h.tables.drop inputCount ∧
      (replacement.isSome ↔ h.retained (h.selectTables inputCount) merged ≠ []) ∧
      ∀ out ∈ replacement, out.Built o h.manifest.nextFileNumber
        (h.retained (h.selectTables inputCount) merged) := by
  have hcount := length_selectTables hstatus
  unfold compactTablePrefix at hr
  rw [hstatus] at hr
  obtain ⟨d, t, p, hsweep⟩ := OnlyFiles.cleanupObsoleteFiles h f.sweep.listed f.sweep.fails
  dsimp only at hr
  rw [hsweep] at hr
  set h₁ : Handle := { h with dir := d, trace := t, pendingCleanup := p } with hh₁
  have hjob : h₁.selectTables inputCount = h.selectTables inputCount := rfl
  split at hr
  · exact absurd (congrArg (fun r => r.2.ok) hr) (by simp [numberExhausted])
  rw [hjob] at hr
  cases hread : f.read with
  | some failure =>
    rw [hread] at hr
    exact absurd (congrArg (fun r => r.2.ok) hr) (by simp [failure.2])
  | none =>
    rw [hread, hmerged] at hr
    dsimp only at hr
    split at hr
    · rename_i hnil
      refine ⟨none, ?_, ?_, by simp⟩
      · rw [tables_of_commitCompaction hr, hcount]
      · simpa [retained] using hnil
    · rename_i hne
      cases hbuild : h₁.buildOutput o (h.selectTables inputCount).number
          (retainEntries (h.selectTables inputCount).coversAll (oldestSnapshot h₁.snapshots) none
            false merged) f with
      | mk h₂ r =>
        rw [hbuild] at hr
        cases r with
        | error status =>
          have herror := (buildOutput_rule (fun _ _ => True) (fun _ => True)
            (fun _ _ _ _ _ _ => trivial) (fun _ _ _ => trivial) (fun _ _ => trivial) hbuild
            trivial).1
          cases hr
          cases herror
        | ok out =>
          refine ⟨some out, ?_, ?_, ?_⟩
          · have hsame : h₂.tables = h.tables := by
              obtain ⟨d', t', p', rfl⟩ := OnlyFiles.buildOutput hbuild
              rfl
            rw [tables_of_commitCompaction hr, hcount, hsame]
          · simpa [retained] using hne
          · rintro _ ⟨⟩
            exact built_of_buildOutput hbuild

end Handle

theorem Output.Built.holds {o : Options} {number : ℕ} {entries : List InternalEntry} {out : Output}
    (h : out.Built o number entries) (hsequence : ∀ e ∈ entries, e.sequence < 2 ^ 64) :
    out.table.Holds entries := by
  refine ⟨⟨_, buildTable_open_valid hsequence (Prod.ext rfl h.built) h.opened, ?_⟩, hsequence⟩
  exact flatten_cutBlocks _ _ _

/-- What the entries that a compaction hands to its builder satisfy. -/
structure CompactionKeeps (coversAll : Bool) (snapshots : List ℕ)
    (inputs : List (List InternalEntry)) (out : List InternalEntry) : Prop where
  mem_iff : ∀ e, e ∈ out ↔ Retained coversAll snapshots.min? inputs.flatten e
  ordered : Ordered out
  /-- `Add` passes its checks at every entry. -/
  added : ∀ (blockBytes ri : ℕ) before e rest b, 1 ≤ ri → out = before ++ e :: rest →
    SSTableBuilder.addAll (.new blockBytes ri) before = (b, none) →
    b.add e = if b.startsBlock e then b.flushBlock.bind (fun b => b.push e) else b.push e
  visible : ∀ key s value, ReadableAt snapshots.min? inputs.flatten s →
    (VisibleValue inputs.flatten key s value ↔ VisibleValue out key s value)

/-- Compaction keeps exactly what is visible. The tables hold `inputs`, no version twice. Then the
merge succeeds, the entries that the loop keeps follow the rules and are added in order, and reads at
the sequences still in use see the same. An explicit compaction installs a table of these entries
exactly when there are any; the worker goes on to build one exactly then, and its commit installs
what was built. -/
theorem compaction_keeps_what_is_visible (o : Options) {tables : List Table}
    {inputs : List (List InternalEntry)} (hheld : List.Forall₂ Table.Holds tables inputs)
    (hdistinct : inputs.flatten.Pairwise fun a b =>
      ¬ (a.userKey = b.userKey ∧ a.sequence = b.sequence))
    {snapshots : List ℕ} (hsnapshots : ∀ s ∈ snapshots, s < noSnapshot) (coversAll : Bool) :
    ∃ merged out, mergedEntries tables = .ok merged ∧
      out = retainEntries coversAll (oldestSnapshot snapshots) none false merged ∧
      CompactionKeeps coversAll snapshots inputs out ∧
      (∀ (h h' : Handle) inputCount f, h.compactionStatus o inputCount false = none →
        (h.selectTables inputCount).tables = tables →
        (h.selectTables inputCount).coversAll = coversAll → h.snapshots = snapshots →
        h.compactTablePrefix o inputCount f = (h', .okay) →
        ∃ replacement : Option Table, h'.tables = replacement.toList ++ h.tables.drop inputCount ∧
          (replacement.isSome ↔ out ≠ []) ∧ ∀ t ∈ replacement, t.Holds out) ∧
      (∀ (s : System) job sweep, s.worker = .merging job → job.tables = tables →
        job.coversAll = coversAll → s.handle.snapshots = snapshots →
        s.moveWorker o sweep = some { s with
          worker := if out = [] then .dropping job else .compacting job out .create }) ∧
      ∀ (h h' : Handle) job replacement fault fails,
        h.commitCompaction job replacement fault fails = (h', .okay) →
        h'.tables = (replacement.map Output.table).toList ++ h.tables.drop job.metas.length := by
  obtain ⟨merged, hmerged, hord, hperm⟩ := mergedEntries_eq hheld hdistinct
  have hmem := mem_retainEntries hord hperm hsnapshots coversAll
  have hsub := retainEntries_sublist coversAll (oldestSnapshot snapshots) none false merged
  have hout : Ordered (retainEntries coversAll (oldestSnapshot snapshots) none false merged) :=
    List.Pairwise.sublist hsub hord
  have hsequence : ∀ e ∈ merged, e.sequence < 2 ^ 64 := by
    intro e he
    obtain ⟨es, hes, he⟩ := List.mem_flatten.mp (hperm.mem_iff.mp he)
    obtain ⟨t, -, ht⟩ := TableFile.forall₂_exists hheld.flip hes
    exact ht.2 e he
  refine ⟨merged, _, hmerged, rfl, ⟨hmem, hout, ?_, ?_⟩, ?_, ?_, ?_⟩
  · intro blockBytes ri before e rest b hri heq hadd
    exact SSTableBuilder.added_of_ordered hout hri heq hadd
  · intro key s value hs
    exact visibleValue_retained hmem hs
  · rintro h h' inputCount f hstatus rfl rfl rfl hr
    obtain ⟨replacement, htables, hsome, hbuilt⟩ := Handle.compactTablePrefix_ok hstatus hmerged hr
    refine ⟨replacement.map Output.table, htables, by rwa [Option.isSome_map], fun t ht => ?_⟩
    obtain ⟨output, houtput, rfl⟩ := Option.mem_map.mp ht
    exact (hbuilt output houtput).holds fun e he => hsequence e (hsub.subset he)
  · rintro s job sweep hworker rfl rfl rfl
    simp only [System.moveWorker, hworker, hmerged]
  · intro h h' job replacement fault fails hr
    exact Handle.tables_of_commitCompaction hr

/-- Entries that fit a table are held by one. -/
theorem TableFits.exists_holds {blockBytes ri : ℕ} {es : List InternalEntry}
    (h : TableFits blockBytes ri es) (number : ℕ) : ∃ t : Table, t.number = number ∧ t.Holds es := by
  have hsequence : ∀ e ∈ es, e.sequence < 2 ^ 64 := fun e he => (h.storable e he).sequence_lt
  obtain ⟨spans, info, hbuild⟩ := buildTable_ok h
  obtain ⟨encs, hfile, -⟩ := buildTable_eq_ok hsequence hbuild
  have hopen := (hfile.open_eq number).1
    (by rw [forall₂_encodedBlock hfile.encoded]; exact h.index_lt)
  refine ⟨⟨number, _⟩, rfl, ⟨_, buildTable_open_valid hsequence hbuild hopen, ?_⟩, hsequence⟩
  exact flatten_cutBlocks _ _ _

/-- The older of two tables: a value of each of two keys. -/
def olderEntries : List InternalEntry := [⟨[107], 1, .value, [49]⟩, ⟨[108], 2, .value, [50]⟩]

/-- The newer one: another value of the first key, and a tombstone of the second. -/
def newerEntries : List InternalEntry := [⟨[107], 3, .value, [51]⟩, ⟨[108], 4, .tombstone, []⟩]

/-- Two tables are compacted under a snapshot at sequence 3. The first value of the first key goes;
the tombstone stays above the value that the snapshot still sees. -/
theorem compaction_keeps_what_is_visible_snapshot :
    ∃ (older newer : Table) (merged out : List InternalEntry),
      older.Holds olderEntries ∧ newer.Holds newerEntries ∧
      mergedEntries [older, newer] = .ok merged ∧
      out = retainEntries true (oldestSnapshot [3]) none false merged ∧
      CompactionKeeps true [3] [olderEntries, newerEntries] out ∧
      ∀ e ∈ olderEntries ++ newerEntries, e ∈ out ↔ e ≠ ⟨[107], 1, .value, [49]⟩ := by
  have hfits : TableFits 1 1 olderEntries :=
    ⟨by decide, by decide, by decide, by decide, by decide, by decide, by decide⟩
  have hfits' : TableFits 1 1 newerEntries :=
    ⟨by decide, by decide, by decide, by decide, by decide, by decide, by decide⟩
  obtain ⟨older, -, holder⟩ := hfits.exists_holds 7
  obtain ⟨newer, -, hnewer⟩ := hfits'.exists_holds 8
  obtain ⟨merged, out, hmerged, hout, hkeeps, -⟩ := compaction_keeps_what_is_visible {}
    (.cons holder (.cons hnewer .nil)) (by decide) (by decide : ∀ s ∈ [3], s < noSnapshot) true
  refine ⟨older, newer, merged, out, holder, hnewer, hmerged, hout, hkeeps, fun e he => ?_⟩
  refine (hkeeps.mem_iff e).trans ?_
  revert e
  decide

end TinyLsm
