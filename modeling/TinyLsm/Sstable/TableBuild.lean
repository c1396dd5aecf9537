import TinyLsm.Sstable.TableFile
import Mathlib.Data.List.Induction

/-!
# What SSTableBuilder writes

`cutBlocks` says where `SSTableBuilder::Add` ends a data block. The invariant of the builder relates
its counters, its index and the spans it has appended to the entries added so far; from it, a
successful `Finish` leaves a table file of the cut entries.
-/

namespace TinyLsm

/-! ## Summaries of growing lists -/

theorem groupKey_append_singleton (es : List InternalEntry) (e : InternalEntry) :
    groupKey (es ++ [e]) = if es = [] then e.userKey else groupKey es := by
  cases es <;> simp [groupKey, previousKey]

theorem lastKeyOf_append_singleton (previous : Bytes) (es : List InternalEntry) (e : InternalEntry) :
    lastKeyOf previous (es ++ [e]) = e.userKey := by
  induction es generalizing previous with
  | nil => rfl
  | cons a es ih => exact ih a.userKey

theorem minSequenceOf_append_singleton (es : List InternalEntry) (e : InternalEntry) :
    minSequenceOf (es ++ [e]) =
      if es = [] then e.sequence else min (minSequenceOf es) e.sequence := by
  cases es <;> simp [minSequenceOf]

theorem maxSequenceOf_append_singleton (es : List InternalEntry) (e : InternalEntry) :
    maxSequenceOf (es ++ [e]) =
      if es = [] then e.sequence else max (maxSequenceOf es) e.sequence := by
  cases es <;> simp [maxSequenceOf]

/-- Every sequence of a list lies between its least and its greatest one. -/
theorem sequence_bounds (es : List InternalEntry) :
    ∀ e ∈ es, minSequenceOf es ≤ e.sequence ∧ e.sequence ≤ maxSequenceOf es := by
  induction es using List.reverseRecOn with
  | nil => simp
  | append_singleton es a ih =>
    intro e he
    rw [minSequenceOf_append_singleton, maxSequenceOf_append_singleton]
    rcases List.mem_append.mp he with he | he
    · have hne : es ≠ [] := List.ne_nil_of_mem he
      obtain ⟨h1, h2⟩ := ih e he
      simp only [hne, if_false]
      omega
    · rw [List.mem_singleton.mp he]
      split <;> omega

/-- The least and the greatest sequence are sequences of the list. -/
theorem exists_minSequenceOf {es : List InternalEntry} (hne : es ≠ []) :
    (∃ e ∈ es, e.sequence = minSequenceOf es) ∧ ∃ e ∈ es, e.sequence = maxSequenceOf es := by
  induction es using List.reverseRecOn with
  | nil => exact absurd rfl hne
  | append_singleton es a ih =>
    rw [minSequenceOf_append_singleton, maxSequenceOf_append_singleton]
    by_cases hes : es = []
    · simp [hes]
    · obtain ⟨⟨x, hx, hxmin⟩, y, hy, hymax⟩ := ih hes
      simp only [hes, if_false]
      constructor
      · rcases le_total (minSequenceOf es) a.sequence with hle | hle
        · exact ⟨x, by simp [hx], by rw [hxmin, min_eq_left hle]⟩
        · exact ⟨a, by simp, (min_eq_right hle).symm⟩
      · rcases le_total (maxSequenceOf es) a.sequence with hle | hle
        · exact ⟨a, by simp, (max_eq_right hle).symm⟩
        · exact ⟨y, by simp [hy], by rw [hymax, max_eq_left hle]⟩

/-! ## Where blocks end -/

/-- Whether `Add` ends the block `pending` before taking `e`. -/
def cutsBlock (blockBytes : ℕ) (pending : List InternalEntry) (e : InternalEntry) : Prop :=
  ∃ last, pending.getLast? = some last ∧ last.userKey ≠ e.userKey ∧
    blockBytes < (pending.map SSTableBuilder.estimate).sum + SSTableBuilder.estimate e +
      (pending.length + 1) * 4 + 8

instance (blockBytes : ℕ) (pending : List InternalEntry) (e : InternalEntry) :
    Decidable (cutsBlock blockBytes pending e) := by
  unfold cutsBlock; infer_instance

/-- The data blocks of a table: `pending` is the block that is being filled. -/
def cutBlocks (blockBytes : ℕ) :
    List InternalEntry → List InternalEntry → List (List InternalEntry)
  | pending, [] => [pending]
  | pending, e :: es =>
    if cutsBlock blockBytes pending e then pending :: cutBlocks blockBytes [e] es
    else cutBlocks blockBytes (pending ++ [e]) es

theorem flatten_cutBlocks (blockBytes : ℕ) (pending es : List InternalEntry) :
    (cutBlocks blockBytes pending es).flatten = pending ++ es := by
  induction es generalizing pending with
  | nil => simp [cutBlocks]
  | cons e es ih =>
    rw [cutBlocks]
    split
    · simp [ih]
    · simp [ih]

/-! ## The builder's invariant -/

/-- Keys of one block lie below those of a later one. -/
def KeysBelow (as bs : List InternalEntry) : Prop := ∀ a ∈ as, ∀ b ∈ bs, a.userKey < b.userKey

namespace SSTableBuilder

/-- The builder has taken the entries of the written blocks `done` and of its pending block. -/
structure Inv (blockBytes ri : ℕ) (b : SSTableBuilder) (done : List (List InternalEntry)) : Prop where
  blockBytes_eq : b.blockBytes = blockBytes
  interval_eq : b.restartInterval = ri
  open_ : b.finished = false
  encoded : List.Forall₂ (EncodedBlock ri) done b.appended
  metas : b.blocks = blockMetas 0 done b.appended
  offset_eq : b.offset = b.appended.flatten.length
  offset_lt : b.offset < 2 ^ 64
  info_eq : b.info = ⟨0, (done.flatten ++ b.pending).length, groupKey (done.flatten ++ b.pending),
    lastKeyOf [] (done.flatten ++ b.pending), minSequenceOf (done.flatten ++ b.pending),
    maxSequenceOf (done.flatten ++ b.pending)⟩
  hasEntries_eq : b.hasEntries = decide (done.flatten ++ b.pending ≠ [])
  count_lt : (done.flatten ++ b.pending).length < 2 ^ 64
  pendingBytes_eq : b.pendingBytes = (b.pending.map estimate).sum
  separated : (done ++ [b.pending]).Pairwise KeysBelow
  pending_ne : done ≠ [] → b.pending ≠ []

theorem inv_new (blockBytes ri : ℕ) : Inv blockBytes ri (new blockBytes ri) [] := by
  constructor <;> simp [new, blockMetas, groupKey, previousKey, lastKeyOf, minSequenceOf,
    maxSequenceOf]

theorem blockMetas_append_singleton {ri : ℕ} {done : List (List InternalEntry)} {encs : List Bytes}
    (h : List.Forall₂ (EncodedBlock ri) done encs) (bs : List InternalEntry) (enc : Bytes) :
    ∀ offset, blockMetas offset (done ++ [bs]) (encs ++ [enc]) = blockMetas offset done encs ++
      [⟨groupKey bs, lastKeyOf [] bs, offset + encs.flatten.length, enc.length⟩] := by
  induction h with
  | nil => intro offset; simp [blockMetas]
  | @cons b e done encs _ _ ih =>
    intro offset
    simp only [List.cons_append, blockMetas, ih, List.flatten_cons, List.length_append,
      Nat.add_assoc]

/-- `FlushBlock` with a pending block: the block is encoded, appended and indexed. -/
theorem flushBlock_eq_ok {b b' : SSTableBuilder} (hne : b.pending ≠ [])
    (h : flushBlock b = .ok b') :
    ∃ enc, EncodedBlock b.restartInterval b.pending enc ∧ b.offset + enc.length < 2 ^ 64 ∧
      b' = { b with
        appended := b.appended ++ [enc]
        offset := b.offset + enc.length
        blocks := b.blocks ++ [⟨groupKey b.pending, lastKeyOf [] b.pending, b.offset, enc.length⟩]
        pending := []
        pendingBytes := 0 } := by
  unfold flushBlock at h
  cases hp : b.pending with
  | nil => exact absurd hp hne
  | cons e rest =>
    obtain ⟨l, hl⟩ : ∃ l, (e :: rest).getLast? = some l :=
      ⟨_, List.getLast?_eq_some_getLast (by simp)⟩
    rw [hp] at h
    simp only [List.head?_cons, hl] at h
    cases henc : encodeDataBlock (e :: rest) b.restartInterval with
    | error s => rw [henc] at h; cases h
    | ok enc =>
      rw [henc] at h
      simp only at h
      split at h
      · cases h
      · rename_i hfit
        obtain rfl := Except.ok.inj h
        have hblock := encodeDataBlock_eq_ok henc
        have hpos : 0 < enc.length := by
          rw [hblock.bytes_eq]
          simp
        refine ⟨enc, hblock, ?_, ?_⟩
        · omega
        · rw [userKey_of_getLast? [] hl]
          rfl

/-- `push` on a state whose counters agree with the entries `es` taken before. -/
theorem push_eq_ok {b b' : SSTableBuilder} {e : InternalEntry} (h : push b e = .ok b') :
    b.info.entryCount ≠ 2 ^ 64 - 1 ∧
      b' = { b with
        info := addInfo b e
        hasEntries := true
        pendingBytes := b.pendingBytes + estimate e
        pending := b.pending ++ [e] } := by
  unfold push at h
  split at h
  · cases h
  · rename_i hcount
    exact ⟨hcount, (Except.ok.inj h).symm⟩

/-- The summary after one more entry. -/
theorem addInfo_eq {b : SSTableBuilder} {es : List InternalEntry} (e : InternalEntry)
    (hinfo : b.info = ⟨0, es.length, groupKey es, lastKeyOf [] es, minSequenceOf es,
      maxSequenceOf es⟩) (hhas : b.hasEntries = decide (es ≠ [])) :
    addInfo b e = ⟨0, (es ++ [e]).length, groupKey (es ++ [e]), lastKeyOf [] (es ++ [e]),
      minSequenceOf (es ++ [e]), maxSequenceOf (es ++ [e])⟩ := by
  rw [addInfo, hinfo, hhas, groupKey_append_singleton, lastKeyOf_append_singleton,
    minSequenceOf_append_singleton, maxSequenceOf_append_singleton]
  by_cases hes : es = [] <;> simp [hes]

variable {blockBytes ri : ℕ} {b b' : SSTableBuilder} {done : List (List InternalEntry)}

/-- The last written block ends below a key that `Add` accepts, and so do all before it. -/
theorem Inv.below_of_last (h : Inv blockBytes ri b done) {key : Bytes}
    (hlast : ∀ block, b.blocks.getLast? = some block → block.lastKey < key) :
    ∀ bs ∈ done, ∀ a ∈ bs, a.userKey < key := by
  have hmetas := h.metas
  have henc := h.encoded
  have hsep := (List.pairwise_append.mp h.separated).1
  cases hdone : done using List.reverseRecOn with
  | nil => simp
  | append_singleton done' bs =>
    rw [hdone] at henc hsep hmetas
    obtain ⟨encs', enc', hencs⟩ : ∃ encs' enc', b.appended = encs' ++ [enc'] := by
      have hlen := henc.length_eq
      have : b.appended ≠ [] := by
        intro h0
        rw [h0] at hlen
        simp at hlen
      exact ⟨b.appended.dropLast, b.appended.getLast this, (List.dropLast_append_getLast this).symm⟩
    rw [hencs] at henc hmetas
    obtain ⟨hdone', hbs⟩ : List.Forall₂ (EncodedBlock ri) done' encs' ∧ EncodedBlock ri bs enc' := by
      have hlen := henc.length_eq
      simp only [List.length_append, List.length_singleton, Nat.add_right_cancel_iff] at hlen
      have htake := List.forall₂_take_append (done' ++ [bs]) encs' [enc'] henc
      have hdrop := List.forall₂_drop_append (done' ++ [bs]) encs' [enc'] henc
      rw [← hlen, List.take_left' rfl] at htake
      rw [← hlen, List.drop_left' rfl] at hdrop
      exact ⟨htake, by simpa using hdrop⟩
    rw [blockMetas_append_singleton hdone' bs enc' 0] at hmetas
    have hkey : lastKeyOf [] bs < key := hlast _ (by rw [hmetas, List.getLast?_concat])
    have hlastBlock : ∀ a ∈ bs, a.userKey < key := fun a ha =>
      (le_lastKeyOf_of_mem _ hbs.ordered ha).trans_lt hkey
    intro bs' hbs' a ha
    rcases List.mem_append.mp hbs' with hmem | hmem
    · cases hcase : bs with
      | nil => exact absurd hcase hbs.ne_nil
      | cons x rest =>
        have hx : x ∈ bs := by rw [hcase]; exact List.mem_cons_self
        exact ((List.pairwise_append.mp hsep).2.2 bs' hmem bs (by simp) a ha x hx).trans
          (hlastBlock x hx)
    · rw [List.mem_singleton.mp hmem] at ha
      exact hlastBlock a ha

/-- `Add` keeps the invariant and cuts the entries as `cutsBlock` says. -/
theorem Inv.add (h : Inv blockBytes ri b done) {e : InternalEntry} (hadd : add b e = .ok b') :
    if cutsBlock blockBytes b.pending e then
      Inv blockBytes ri b' (done ++ [b.pending]) ∧ b'.pending = [e]
    else Inv blockBytes ri b' done ∧ b'.pending = b.pending ++ [e] := by
  unfold SSTableBuilder.add at hadd
  rw [if_neg (by simp [h.open_])] at hadd
  split at hadd
  · cases hadd
  split at hadd
  · cases hadd
  rename_i hri hord
  have hpendingLast : ∀ last, b.pending.getLast? = some last → InternalLess last e := by
    intro last hl
    by_contra hno
    exact hord (.inl ⟨last, hl, hno⟩)
  have hbelow := h.below_of_last (by
    intro block hb
    by_contra hno
    exact hord (.inr ⟨block, hb, hno⟩))
  have hcut : startsBlock b e ↔ cutsBlock blockBytes b.pending e := by
    simp only [startsBlock, cutsBlock, h.blockBytes_eq, h.pendingBytes_eq]
  by_cases hc : cutsBlock blockBytes b.pending e
  · rw [if_pos (hcut.mpr hc)] at hadd
    rw [if_pos hc]
    obtain ⟨last, hl, hne, -⟩ := hc
    have hpne : b.pending ≠ [] := by
      intro h0
      rw [h0] at hl
      cases hl
    cases hflush : flushBlock b with
    | error s => rw [hflush] at hadd; cases hadd
    | ok b₁ =>
      rw [hflush] at hadd
      obtain ⟨enc, henc, hoff, rfl⟩ := flushBlock_eq_ok hpne hflush
      obtain ⟨hcount, rfl⟩ := push_eq_ok hadd
      rw [h.interval_eq] at henc
      have hlastLt : last.userKey < e.userKey := by
        rcases hpendingLast last hl with hlt | heq
        · exact hlt
        · exact absurd heq.1 hne
      have hpendingLt : ∀ a ∈ b.pending, a.userKey < e.userKey := fun a ha => by
        have := le_lastKeyOf_of_mem [] henc.ordered ha
        rw [← userKey_of_getLast? [] hl] at this
        exact this.trans_lt hlastLt
      have hcount' : (done.flatten ++ b.pending).length + 1 < 2 ^ 64 := by
        have := h.count_lt
        have hc := hcount
        simp only [h.info_eq] at hc
        omega
      have hlist : (done ++ [b.pending]).flatten ++ [e] = done.flatten ++ b.pending ++ [e] := by simp
      refine ⟨⟨h.blockBytes_eq, h.interval_eq, h.open_, ?_, ?_, ?_, hoff, ?_, ?_, ?_, ?_, ?_, ?_⟩,
        rfl⟩
      · exact List.rel_append h.encoded (.cons henc .nil)
      · change b.blocks ++ [_] = blockMetas 0 (done ++ [b.pending]) (b.appended ++ [enc])
        rw [blockMetas_append_singleton h.encoded, ← h.metas, ← h.offset_eq, Nat.zero_add]
      · simp [h.offset_eq]
      · simp only [List.nil_append, hlist]
        exact addInfo_eq e h.info_eq h.hasEntries_eq
      · simp
      · simp only [List.nil_append, hlist, List.length_append, List.length_singleton] at hcount' ⊢
        omega
      · simp [estimate]
      · simp only [List.nil_append]
        refine List.pairwise_append.mpr ⟨h.separated, by simp, ?_⟩
        intro bs hbs bs' hbs' a ha a' ha'
        rw [List.mem_singleton.mp hbs', List.mem_singleton] at ha'
        subst ha'
        rcases List.mem_append.mp hbs with hbs | hbs
        · exact hbelow bs hbs a ha
        · rw [List.mem_singleton.mp hbs] at ha
          exact hpendingLt a ha
      · simp
  · rw [if_neg (fun hs => hc (hcut.mp hs))] at hadd
    rw [if_neg hc]
    obtain ⟨hcount, rfl⟩ := push_eq_ok hadd
    have hcount' : (done.flatten ++ b.pending).length + 1 < 2 ^ 64 := by
      have := h.count_lt
      have hc := hcount
      simp only [h.info_eq] at hc
      omega
    have hlist : done.flatten ++ (b.pending ++ [e]) = done.flatten ++ b.pending ++ [e] := by simp
    refine ⟨⟨h.blockBytes_eq, h.interval_eq, h.open_, h.encoded, h.metas, h.offset_eq, h.offset_lt,
      ?_, ?_, ?_, ?_, ?_, ?_⟩, rfl⟩
    · simp only [hlist]
      exact addInfo_eq e h.info_eq h.hasEntries_eq
    · simp
    · simp only [hlist, List.length_append, List.length_singleton] at hcount' ⊢
      omega
    · simp [h.pendingBytes_eq]
    · obtain ⟨hdone, -, hpending⟩ := List.pairwise_append.mp h.separated
      refine List.pairwise_append.mpr ⟨hdone, by simp, ?_⟩
      intro bs hbs bs' hbs' a ha a' ha'
      rw [List.mem_singleton.mp hbs', List.mem_append, List.mem_singleton] at ha'
      rcases ha' with ha' | rfl
      · exact hpending bs hbs b.pending (by simp) a ha a' ha'
      · exact hbelow bs hbs a ha
    · simp

/-- A successful run of `Add` calls has written all blocks of the cut but the last one. -/
theorem Inv.addAll (h : Inv blockBytes ri b done) {es : List InternalEntry}
    (hadd : addAll b es = (b', none)) :
    ∃ done', Inv blockBytes ri b' done' ∧
      done' ++ [b'.pending] = done ++ cutBlocks blockBytes b.pending es := by
  induction es generalizing b done with
  | nil =>
    simp only [SSTableBuilder.addAll, Prod.mk.injEq, and_true] at hadd
    subst hadd
    exact ⟨done, h, rfl⟩
  | cons e es ih =>
    simp only [SSTableBuilder.addAll] at hadd
    cases hstep : SSTableBuilder.add b e with
    | error s => rw [hstep] at hadd; simp at hadd
    | ok b₁ =>
      rw [hstep] at hadd
      have hinv := h.add hstep
      rw [cutBlocks]
      by_cases hc : cutsBlock blockBytes b.pending e
      · rw [if_pos hc] at hinv ⊢
        obtain ⟨done', hdone', heq⟩ := ih hinv.1 hadd
        refine ⟨done', hdone', ?_⟩
        rw [heq, hinv.2]
        simp
      · rw [if_neg hc] at hinv ⊢
        obtain ⟨done', hdone', heq⟩ := ih hinv.1 hadd
        exact ⟨done', hdone', by rw [heq, hinv.2]⟩

/-- What a successful `Finish` has written behind the blocks. -/
theorem finish_eq_ok {info : BuiltTableInfo} (h : finish b = (b', .ok info)) :
    ∃ b₁ index, flushBlock b = .ok b₁ ∧ encodeIndex b₁.blocks = .ok index ∧
      (let properties : TableProperties := ⟨b₁.info.entryCount, b₁.info.smallestKey,
          b₁.info.largestKey, b₁.info.minSequence, b₁.info.maxSequence⟩
       let propertiesBytes := propertiesBytes properties
       encodeProperties properties = .ok propertiesBytes ∧
       b₁.offset + index.length + propertiesBytes.length < 2 ^ 64 ∧
       b'.appended = b₁.appended ++ [index, propertiesBytes,
          encodeFooter (tableFooter b₁.offset index.length propertiesBytes.length)] ∧
       info = { b₁.info with
         fileSize := (b₁.offset + index.length + propertiesBytes.length + kSstableFooterSize) % 2 ^ 64 }) := by
  unfold finish at h
  split at h
  · cases h
  split at h
  · cases h
  cases hflush : flushBlock b with
  | error s => rw [hflush] at h; cases h
  | ok b₁ =>
    rw [hflush] at h
    simp only at h
    cases hindex : encodeIndex b₁.blocks with
    | error s => rw [hindex] at h; cases h
    | ok index =>
      rw [hindex] at h
      simp only at h
      split at h
      · cases h
      rename_i hfit
      have hipos : 0 < index.length := by
        rw [(encodeIndex_eq_ok hindex).1]
        simp [indexBytes]
      cases hprops : encodeProperties ⟨b₁.info.entryCount, b₁.info.smallestKey, b₁.info.largestKey,
          b₁.info.minSequence, b₁.info.maxSequence⟩ with
      | error s => rw [hprops] at h; cases h
      | ok properties =>
        rw [hprops] at h
        simp only at h
        split at h
        · cases h
        rename_i hfit'
        obtain rfl : properties = propertiesBytes _ := by
          unfold encodeProperties at hprops
          split at hprops
          · cases hprops
          · exact (Except.ok.inj hprops).symm
        rw [length_propertiesBytes] at hfit'
        simp only [Except.ok.injEq, Prod.mk.injEq] at h
        obtain ⟨rfl, rfl⟩ := h
        refine ⟨b₁, index, rfl, hindex, hprops, ?_, List.append_assoc _ _ _, ?_⟩
        · rw [length_propertiesBytes]
          omega
        · rw [length_encodeFooter]

end SSTableBuilder

theorem encodeProperties_eq_ok {p : TableProperties} {bytes : Bytes}
    (h : encodeProperties p = .ok bytes) (hcount : p.entryCount < 2 ^ 64)
    (hmax : p.maxSequence < 2 ^ 64) : p.Fits := by
  unfold encodeProperties at h
  split at h
  · cases h
  · rename_i hok
    simp only [not_or, not_lt, Bool.not_eq_true, fitsU32, decide_eq_false_iff_not, not_le] at hok
    obtain ⟨h1, h2, h3, h4, h5, h6⟩ := hok
    exact ⟨Nat.pos_of_ne_zero h1, hcount, Nat.pos_of_ne_zero h2, h3, hmax, h4, h5, h6⟩

/-! ## Built tables -/

/-- A finished build ends with a pending block, which `Finish` flushes. -/
theorem buildTable_finish {blockBytes ri : ℕ} {es : List InternalEntry} {spans : List Bytes}
    {info : BuiltTableInfo} (h : buildTable blockBytes ri es = (spans, .ok info)) :
    ∃ b b' done, SSTableBuilder.Inv blockBytes ri b done ∧
      done ++ [b.pending] = cutBlocks blockBytes [] es ∧ b.pending ≠ [] ∧
      b.finish = (b', .ok info) ∧ b'.appended = spans := by
  unfold buildTable at h
  cases hadd : (SSTableBuilder.new blockBytes ri).addAll es with
  | mk b failed =>
    rw [hadd] at h
    cases failed with
    | some s => simp at h
    | none =>
      simp only at h
      obtain ⟨done, hinv, hcut⟩ := (SSTableBuilder.inv_new blockBytes ri).addAll hadd
      rw [List.nil_append] at hcut
      have hpending₀ : (SSTableBuilder.new blockBytes ri).pending = [] := rfl
      rw [hpending₀] at hcut
      cases hfin : b.finish with
      | mk b' result =>
        rw [hfin] at h
        obtain ⟨rfl, rfl⟩ := Prod.mk.inj h
        refine ⟨b, b', done, hinv, hcut, fun hnil => ?_, hfin, rfl⟩
        have hdone : done = [] := by
          by_contra hne
          exact hinv.pending_ne hne hnil
        have hblocks : b.blocks = [] := by rw [hinv.metas, hdone]; rfl
        unfold SSTableBuilder.finish at hfin
        rw [if_neg (by simp [hinv.open_]), if_pos ⟨hnil, hblocks⟩] at hfin
        cases hfin

/-- `Open` takes a built table as v2. -/
theorem buildTable_version {blockBytes ri : ℕ} {es : List InternalEntry} {spans : List Bytes}
    {info : BuiltTableInfo} (h : buildTable blockBytes ri es = (spans, .ok info)) {tableNumber : ℕ}
    {r : SSTableReader} (hopen : SSTableReader.open spans.flatten tableNumber = .ok r) :
    r.version = kSstableVersion := by
  obtain ⟨b, b', done, hinv, -, hpne, hfin, rfl⟩ := buildTable_finish h
  obtain ⟨b₁, index, hflush, -, -, hsize, happended, -⟩ := SSTableBuilder.finish_eq_ok hfin
  obtain ⟨enc, -, -, rfl⟩ := SSTableBuilder.flushBlock_eq_ok hpne hflush
  set properties := propertiesBytes ⟨b.info.entryCount, b.info.smallestKey, b.info.largestKey,
    b.info.minSequence, b.info.maxSequence⟩ with hproperties
  dsimp only at hsize happended
  have hlen : (b.appended.flatten ++ (enc ++ (index ++ properties))).length =
      b.offset + enc.length + index.length + properties.length := by
    simp [hinv.offset_eq, Nat.add_assoc]
  have hflat : b'.appended.flatten = b.appended.flatten ++ (enc ++ (index ++ properties)) ++
      encodeFooter (tableFooter (b.offset + enc.length) index.length properties.length) := by
    rw [happended]
    simp
  have hfits : (tableFooter (b.offset + enc.length) index.length properties.length).Fits :=
    ⟨rfl, by simp only [tableFooter]; omega, by simp only [tableFooter]; omega,
      by simp only [tableFooter]; omega, by simp only [tableFooter]; omega⟩
  obtain ⟨footer, -, hread, hsections, -, -, -, -, hversion⟩ := SSTableReader.open_eq_ok hopen
  rw [hflat] at hread hsections
  rcases TableFile.readFooter_tail hfits hlen with htail | ⟨-, g, htail, s, hs⟩
  · rw [htail] at hread
    obtain rfl := Except.ok.inj hread
    exact hversion
  · rw [htail] at hread
    obtain rfl := Except.ok.inj hread
    rw [hs] at hsections
    cases hsections

/-- The sequences that a finished build reports are those of its entries. -/
theorem buildTable_sequences {blockBytes ri : ℕ} {es : List InternalEntry}
    {info : BuiltTableInfo} (h : (buildTable blockBytes ri es).2 = .ok info) :
    es ≠ [] ∧ info.minSequence = minSequenceOf es ∧ info.maxSequence = maxSequenceOf es := by
  obtain ⟨b, b', done, hinv, hcut, hpne, hfin, -⟩ := buildTable_finish (Prod.ext rfl h)
  have hes : done.flatten ++ b.pending = es := by
    have := congrArg List.flatten hcut
    rw [flatten_cutBlocks, List.flatten_append] at this
    simpa using this
  obtain ⟨b₁, index, hflush, -, -, -, -, hinfo⟩ := SSTableBuilder.finish_eq_ok hfin
  obtain ⟨enc, -, -, rfl⟩ := SSTableBuilder.flushBlock_eq_ok hpne hflush
  refine ⟨?_, ?_⟩
  · rintro rfl
    exact hpne (List.append_eq_nil_iff.mp hes).2
  · rw [hinfo, hinv.info_eq, hes]
    exact ⟨rfl, rfl⟩

theorem buildTable_maxSequence {blockBytes ri : ℕ} {es : List InternalEntry}
    {info : BuiltTableInfo} (h : (buildTable blockBytes ri es).2 = .ok info) :
    es ≠ [] ∧ info.maxSequence = maxSequenceOf es :=
  ⟨(buildTable_sequences h).1, (buildTable_sequences h).2.2⟩

/-- A finished build has written a table file of the cut entries, and returns their summary. -/
theorem buildTable_eq_ok {blockBytes ri : ℕ} {es : List InternalEntry} {spans : List Bytes}
    {info : BuiltTableInfo} (hseq : ∀ e ∈ es, e.sequence < 2 ^ 64)
    (h : buildTable blockBytes ri es = (spans, .ok info)) :
    ∃ encs, TableFile ri (cutBlocks blockBytes [] es) encs spans.flatten ∧
      info = ⟨spans.flatten.length % 2 ^ 64, es.length, groupKey es, lastKeyOf [] es,
        minSequenceOf es, maxSequenceOf es⟩ := by
  obtain ⟨b, b', done, hinv, hcut, hpne, hfin, rfl⟩ := buildTable_finish h
  have hes : done.flatten ++ b.pending = es := by
    have := congrArg List.flatten hcut
    rw [flatten_cutBlocks, List.flatten_append] at this
    simpa using this
  obtain ⟨b₁, index, hflush, hindex, hprops, hsize, happended, hinfo⟩ :=
    SSTableBuilder.finish_eq_ok hfin
  obtain ⟨enc, henc, -, rfl⟩ := SSTableBuilder.flushBlock_eq_ok hpne hflush
  rw [hinv.interval_eq] at henc
  obtain ⟨rfl, hkeys⟩ := encodeIndex_eq_ok hindex
  -- the final blocks, their encodings and their index
  have hmetas : b.blocks ++ [⟨groupKey b.pending, lastKeyOf [] b.pending, b.offset,
      enc.length⟩] = blockMetas 0 (cutBlocks blockBytes [] es) (b.appended ++ [enc]) := by
    rw [← hcut, SSTableBuilder.blockMetas_append_singleton hinv.encoded, ← hinv.metas,
      ← hinv.offset_eq, Nat.zero_add]
  have hproperties : (⟨b.info.entryCount, b.info.smallestKey, b.info.largestKey,
      b.info.minSequence, b.info.maxSequence⟩ : TableProperties) = entriesProperties es := by
    rw [hinv.info_eq, hes]
    rfl
  have hdata : b.offset + enc.length = (b.appended ++ [enc]).flatten.length := by
    simp [hinv.offset_eq]
  simp only [hmetas, hproperties, hdata] at hprops hsize happended hinfo hkeys
  have hflat : (cutBlocks blockBytes [] es).flatten = es := by
    rw [flatten_cutBlocks, List.nil_append]
  have hne : es ≠ [] := by
    intro h0
    rw [h0, List.append_eq_nil_iff] at hes
    exact hpne hes.2
  have hmax : maxSequenceOf es < 2 ^ 64 := by
    obtain ⟨-, e, he, hmax⟩ := exists_minSequenceOf hne
    rw [← hmax]
    exact hseq e he
  have hcount := hinv.count_lt
  rw [hes] at hcount
  have hfits := encodeProperties_eq_ok hprops hcount hmax
  refine ⟨b.appended ++ [enc], ⟨?_, ?_, ?_, hkeys, ?_, ?_, ?_⟩, ?_⟩
  · rw [← hcut]
    exact List.rel_append hinv.encoded (.cons henc .nil)
  · rw [hflat]
    intro e he
    have hmin : 0 < minSequenceOf es := hfits.min_pos
    exact ⟨hmin.trans_le (sequence_bounds es e he).1, hseq e he⟩
  · rw [← hcut]
    exact hinv.separated
  · rwa [hflat]
  · rwa [hflat]
  · rw [happended, hflat]
    simp
  · rw [hinfo, hinv.info_eq, hes, happended]
    simp only [List.flatten_append, List.flatten_cons, List.flatten_nil, List.append_nil,
      List.length_append, length_encodeFooter]
    congr 2
    omega

end TinyLsm
