import TinyLsm.Sstable.TableBuild

/-!
# Built tables read back

The reader that `SSTableReader::Open` returns on a finished table: `ValidateAndGetProperties` accepts
it with the summary the builder returned, the lookup through decoded blocks returns the newest
visible version, and the lookup through restart keys does so exactly when no block cuts the visible
versions of the key at a restart point.
-/

namespace TinyLsm

/-! ## Validation -/

theorem foldl_addProperties (fileSize : ℕ) (es : List InternalEntry) :
    es.foldl SSTableReader.addProperties ⟨fileSize, 0, [], [], 0, 0⟩ =
      ⟨fileSize, es.length, groupKey es, lastKeyOf [] es, minSequenceOf es, maxSequenceOf es⟩ := by
  induction es using List.reverseRecOn with
  | nil => rfl
  | append_singleton es e ih =>
    rw [List.foldl_append, List.foldl_cons, List.foldl_nil, ih, SSTableReader.addProperties,
      groupKey_append_singleton, lastKeyOf_append_singleton, minSequenceOf_append_singleton,
      maxSequenceOf_append_singleton]
    by_cases hes : es = [] <;> simp [hes]

/-- The block loop of `ValidateAndGetProperties` over readable blocks in key order. -/
theorem validateBlocks_eq_ok {r : SSTableReader} {ms : List BlockMeta}
    {bss : List (List InternalEntry)}
    (h : List.Forall₂ (fun m bs => r.readBlock m = .ok bs) ms bss) :
    ∀ (previous : Option Bytes) (p : SSTableProperties), OrderedBlocks bss →
      (∀ last, previous = some last → ∀ bs ∈ bss, ∀ b ∈ bs, last < b.userKey) →
      SSTableReader.validateBlocks r previous p ms =
        .ok (bss.flatten.foldl SSTableReader.addProperties p) := by
  induction h with
  | nil => intros; rfl
  | @cons m bs ms bss hread _ ih =>
    intro previous p hord hprev
    obtain ⟨hsep, hsep'⟩ := List.pairwise_cons.mp hord.separated
    simp only [SSTableReader.validateBlocks, hread]
    rw [if_neg]
    · rw [List.flatten_cons, List.foldl_append]
      refine ih _ _ ⟨fun b hb => hord.nonempty b (by simp [hb]),
        fun b hb => hord.ordered b (by simp [hb]), hsep'⟩ ?_
      intro last hlast bs' hbs' b hb
      obtain ⟨l, hl, rfl⟩ := Option.map_eq_some_iff.mp hlast
      exact hsep bs' hbs' l (List.mem_of_getLast? hl) b hb
    · rintro ⟨last, hlast, front, hfront, hnot⟩
      exact hnot (hprev last hlast bs List.mem_cons_self front (List.mem_of_head? hfront))

/-- `ValidateAndGetProperties` on a valid reader that has blocks, and whose persisted properties, if
there are any, are those of the entries. -/
theorem SSTableReader.Valid.validate {r : SSTableReader} {bss : List (List InternalEntry)}
    (h : r.Valid bss) (hne : r.blocks ≠ [])
    (hpersisted : ∀ q, r.persistedProperties = some q → q = entriesProperties bss.flatten) :
    r.validateAndGetProperties =
      .ok ⟨r.fileSize, bss.flatten.length, groupKey bss.flatten, lastKeyOf [] bss.flatten,
        minSequenceOf bss.flatten, maxSequenceOf bss.flatten⟩ := by
  have hvalidate := validateBlocks_eq_ok (h.blocks.imp fun _ _ hm => hm.1) none
    ⟨r.fileSize, 0, [], [], 0, 0⟩ h.ordered (by simp)
  rw [foldl_addProperties] at hvalidate
  simp only [SSTableReader.validateAndGetProperties, hne, if_false, hvalidate]
  rw [if_neg]
  rintro ⟨q, hq, hbad⟩
  obtain rfl := hpersisted q hq
  simp [entriesProperties] at hbad

/-- The reader of a table file passes `ValidateAndGetProperties`. -/
theorem TableFile.validate {ri : ℕ} {bss : List (List InternalEntry)} {encs : List Bytes}
    {file : Bytes} (h : TableFile ri bss encs file) (tableNumber : ℕ) :
    (tableReader bss encs file tableNumber).validateAndGetProperties =
      .ok ⟨file.length, bss.flatten.length, groupKey bss.flatten, lastKeyOf [] bss.flatten,
        minSequenceOf bss.flatten, maxSequenceOf bss.flatten⟩ := by
  have hvalid := h.valid tableNumber
  refine hvalid.validate (fun hnil => ?_) fun q hq => (Option.some.inj hq).symm
  have hblocks := hvalid.blocks
  rw [hnil, List.forall₂_nil_left_iff] at hblocks
  have := h.properties_fit.count_pos
  simp [hblocks, entriesProperties] at this

/-! ## Lookups -/

section
variable {blockBytes ri tableNumber : ℕ} {entries : List InternalEntry} {spans : List Bytes}
  {info : BuiltTableInfo} {r : SSTableReader}

/-- A reader opened on a finished table returns the blocks the builder cut. -/
theorem buildTable_open_valid (hseq : ∀ e ∈ entries, e.sequence < 2 ^ 64)
    (hbuild : buildTable blockBytes ri entries = (spans, .ok info))
    (hopen : SSTableReader.open spans.flatten tableNumber = .ok r) :
    r.Valid (cutBlocks blockBytes [] entries) := by
  obtain ⟨encs, hfile, -⟩ := buildTable_eq_ok hseq hbuild
  rw [(hfile.open_eq tableNumber).2 r hopen]
  exact hfile.valid tableNumber

/-- Both lookups of a reader opened on a finished table return the entry of the key with the
greatest sequence at most the wanted one (or `NotFound`) if and only if no block of the table holds
an entry of the key at a restart index behind a version of the key that is already visible. -/
theorem get_uncached_agrees_iff (hseq : ∀ e ∈ entries, e.sequence < 2 ^ 64)
    (hbuild : buildTable blockBytes ri entries = (spans, .ok info))
    (hopen : SSTableReader.open spans.flatten tableNumber = .ok r) (key : Bytes) (sequence : ℕ) :
    (IsLookup entries key sequence (r.get false key sequence) ∧
      IsLookup entries key sequence (r.get true key sequence)) ↔
    ∀ block ∈ cutBlocks blockBytes [] entries, ¬ StraddlesRestart ri block key sequence := by
  have hvalid := buildTable_open_valid hseq hbuild hopen
  obtain ⟨encs, hfile, -⟩ := buildTable_eq_ok hseq hbuild
  obtain rfl := (hfile.open_eq tableNumber).2 r hopen
  have hcached := hvalid.get_cached key sequence
  have huncached := hfile.get_uncached_iff tableNumber key sequence
  rw [flatten_cutBlocks, List.nil_append] at hcached huncached
  rw [← huncached]
  exact ⟨fun h => h.1, fun h => ⟨h, hcached⟩⟩

end

/-- Two versions of the key `k` in a block with a restart at every entry. -/
def straddlingEntries : List InternalEntry :=
  [⟨[107], 2, .value, [50]⟩, ⟨[107], 1, .value, [49]⟩]

/-- The table of `straddlingEntries` and its reader. -/
def straddlingTable : Bytes := (buildTable 4096 1 straddlingEntries).1.flatten

/-- Three versions of the key `k` and two other keys, in groups of three. -/
def groupedEntries : List InternalEntry :=
  [⟨[107], 5, .tombstone, []⟩, ⟨[107], 3, .value, [51]⟩, ⟨[107], 2, .value, [50]⟩,
    ⟨[108], 4, .value, [52]⟩, ⟨[109], 1, .value, [49]⟩]

/-- No restart stands inside the versions of `k`, so both lookups find the visible ones. -/
theorem get_uncached_agrees_grouped :
    ∃ spans info r, buildTable 4096 3 groupedEntries = (spans, .ok info) ∧
      SSTableReader.open spans.flatten 7 = .ok r ∧
      IsLookup groupedEntries [107] 4 (r.get false [107] 4) ∧
      IsLookup groupedEntries [107] 4 (r.get true [107] 4) := by
  obtain ⟨spans, info, hbuild⟩ : ∃ spans info, buildTable 4096 3 groupedEntries = (spans, .ok info) :=
    ⟨(buildTable 4096 3 groupedEntries).1, ⟨256, 5, [107], [109], 1, 5⟩, by decide +kernel⟩
  obtain ⟨r, hopen⟩ : ∃ r, SSTableReader.open spans.flatten 7 = .ok r := by
    have hspans : spans = (buildTable 4096 3 groupedEntries).1 := by rw [hbuild]
    have hok : (SSTableReader.open (buildTable 4096 3 groupedEntries).1.flatten 7).isOk = true := by
      decide +kernel
    rw [hspans]
    cases hr : SSTableReader.open (buildTable 4096 3 groupedEntries).1.flatten 7 with
    | error s => rw [hr] at hok; cases hok
    | ok r => exact ⟨r, rfl⟩
  exact ⟨spans, info, r, hbuild, hopen,
    (get_uncached_agrees_iff (by decide) hbuild hopen [107] 4).mpr (by decide)⟩

/-- The lookup without a cache returns the older of the two versions. -/
theorem get_uncached_returns_older :
    ¬ ∀ (blockBytes ri tableNumber : ℕ) (entries : List InternalEntry) (spans : List Bytes)
      (info : BuiltTableInfo) (r : SSTableReader) (key : Bytes) (sequence : ℕ),
      (∀ e ∈ entries, e.sequence < 2 ^ 64) →
      buildTable blockBytes ri entries = (spans, .ok info) →
      SSTableReader.open spans.flatten tableNumber = .ok r →
      IsLookup entries key sequence (r.get false key sequence) ∧
        IsLookup entries key sequence (r.get true key sequence) := by
  intro hclaim
  obtain ⟨r, hopen, hget⟩ : ∃ r, SSTableReader.open straddlingTable 7 = .ok r ∧
      r.get false [107] 5 = .ok ⟨[107], 1, .value, [49]⟩ := by
    have hok : ((SSTableReader.open straddlingTable 7).toOption.map
        (·.get false [107] 5)) = some (.ok ⟨[107], 1, .value, [49]⟩) := by decide +kernel
    cases hr : SSTableReader.open straddlingTable 7 with
    | error s => rw [hr] at hok; cases hok
    | ok r =>
      rw [hr] at hok
      exact ⟨r, rfl, Option.some.inj hok⟩
  have hbuild : buildTable 4096 1 straddlingEntries =
      ((buildTable 4096 1 straddlingEntries).1, .ok ⟨190, 2, [107], [107], 1, 2⟩) := by
    decide +kernel
  obtain ⟨hlookup, -⟩ := hclaim 4096 1 7 straddlingEntries _ _ r [107] 5 (by decide) hbuild hopen
  rw [hget] at hlookup
  rcases hlookup with ⟨e, he, hnewest⟩ | ⟨⟨m, hm⟩, -⟩
  · obtain rfl := Except.ok.inj he
    have := hnewest.newest ⟨[107], 2, .value, [50]⟩ (by decide) rfl (by decide)
    simp at this
  · cases hm

end TinyLsm
