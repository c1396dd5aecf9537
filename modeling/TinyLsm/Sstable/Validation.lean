import TinyLsm.Sstable.Lookup

/-!
# Validated tables

What a successful `ValidateAndGetProperties` says of a table, whatever bytes the file holds: its
blocks decode to ordered entries, and the reported properties are those of the entries.
-/

namespace TinyLsm

theorem Ordered.concat {es : List InternalEntry} (h : Ordered es) {e : InternalEntry}
    (hlast : ∀ last, es.getLast? = some last → InternalLess last e) : Ordered (es ++ [e]) := by
  refine List.pairwise_append.mpr ⟨h, List.pairwise_singleton _ _, fun a ha b hb => ?_⟩
  obtain rfl := List.mem_singleton.mp hb
  cases hl : es.getLast? with
  | none => rw [List.getLast?_eq_none_iff.mp hl] at ha; cases ha
  | some last =>
    -- every entry is the last one or precedes it
    obtain ⟨init, rfl⟩ : ∃ init, es = init ++ [last] :=
      ⟨es.dropLast, (List.dropLast_append_getLast? last hl).symm⟩
    have hless := hlast last hl
    rcases List.mem_append.mp ha with ha | ha
    · exact ((List.pairwise_append.mp h).2.2 a ha last (List.mem_singleton.mpr rfl)).trans hless
    · rwa [List.mem_singleton.mp ha]

theorem decodeV2Entries_ordered {bytes : Bytes} {layout : V2BlockLayout} {remaining : ℕ} :
    ∀ {position restartIndex : ℕ} {previous : Bytes} {out out' : List InternalEntry} {p q : ℕ},
      Ordered out →
      decodeV2Entries bytes layout remaining position restartIndex previous out = .ok (out', p, q) →
      Ordered out' := by
  induction remaining with
  | zero =>
    intro _ _ _ out out' _ _ hord h
    obtain rfl : out = out' := congrArg Prod.fst (Except.ok.inj h)
    exact hord
  | succ remaining ih =>
    intro position restartIndex previous out out' p q hord h
    simp only [decodeV2Entries] at h
    split at h
    · cases h
    · split at h
      · cases h
      · rename_i hcheck
        refine ih (hord.concat fun last hlast => ?_) h
        by_contra hnot
        exact hcheck ⟨last, hlast, hnot⟩

theorem decodeV1Entries_ordered {bytes : Bytes} {offsetsStart remaining : ℕ} :
    ∀ {i : ℕ} {out out' : List InternalEntry}, Ordered out →
      decodeV1Entries bytes offsetsStart remaining i out = .ok out' → Ordered out' := by
  induction remaining with
  | zero =>
    intro _ out out' hord h
    obtain rfl : out = out' := Except.ok.inj h
    exact hord
  | succ remaining ih =>
    intro i out out' hord h
    simp only [decodeV1Entries] at h
    generalize (if remaining = 0 then offsetsStart % 2 ^ 32
      else (getFixed32 bytes (offsetsStart + 4 * (i + 1))).getD 0) = next at h
    split at h
    · cases h
    split at h
    · cases h
    split at h
    · cases h
    split at h
    · cases h
    rename_i hcheck
    refine ih (hord.concat fun last hlast => ?_) h
    by_contra hnot
    exact hcheck (.inl ⟨last, hlast, hnot⟩)

theorem decodeDataBlock_ordered {bytes : Bytes} {version : ℕ} {es : List InternalEntry}
    (h : decodeDataBlock bytes version = .ok es) : Ordered es := by
  have hnil : Ordered [] := List.Pairwise.nil
  unfold decodeDataBlock at h
  split at h
  · unfold decodeDataBlockV1 at h
    simp only at h
    repeat' split at h
    all_goals first
      | cases h
      | exact decodeV1Entries_ordered hnil h
  · split at h
    · unfold decodeDataBlockV2 at h
      split at h
      · cases h
      · split at h
        · cases h
        · rename_i hdecode
          split at h
          · cases h
          · obtain rfl := Except.ok.inj h
            exact decodeV2Entries_ordered hnil hdecode
    · cases h

namespace SSTableReader

variable {r : SSTableReader}

theorem readBlock_eq_ok {m : BlockMeta} {es : List InternalEntry} (h : r.readBlock m = .ok es) :
    es ≠ [] ∧ Ordered es ∧ m.firstKey = groupKey es ∧ m.lastKey = lastKeyOf [] es ∧
      ∀ e ∈ es, 0 < e.sequence := by
  unfold readBlock at h
  split at h
  · cases h
  split at h
  · cases h
  rename_i entries hdecode
  split at h
  · rename_i front back hfront hback
    split at h
    · cases h
    rename_i hkeys
    split at h
    · cases h
    rename_i hseq
    obtain rfl := Except.ok.inj h
    simp only [not_or, not_not] at hkeys
    refine ⟨?_, decodeDataBlock_ordered hdecode, ?_, ?_, fun e he => ?_⟩
    · rintro rfl
      cases hfront
    · rw [← hkeys.1]
      cases entries with
      | nil => cases hfront
      | cons a as =>
        obtain rfl := Option.some.inj hfront
        rfl
    · rw [← hkeys.2]
      exact userKey_of_getLast? [] hback
    · by_contra hzero
      exact hseq ⟨e, he, by omega⟩
  · cases h

theorem validateBlocks_sound {ms : List BlockMeta} :
    ∀ {previous : Option Bytes} {p q : SSTableProperties},
      r.validateBlocks previous p ms = .ok q →
      ∃ bss, List.Forall₂ (fun m bs => r.readBlock m = .ok bs) ms bss ∧
        bss.Pairwise (fun as bs => ∀ a ∈ as, ∀ b ∈ bs, a.userKey < b.userKey) ∧
        (∀ last, previous = some last → ∀ bs ∈ bss, ∀ b ∈ bs, last < b.userKey) ∧
        q = bss.flatten.foldl addProperties p := by
  induction ms with
  | nil =>
    intro previous p q h
    exact ⟨[], .nil, .nil, by simp, (Except.ok.inj h).symm⟩
  | cons m ms ih =>
    intro previous p q h
    simp only [validateBlocks] at h
    split at h
    · cases h
    rename_i es hread
    split at h
    · cases h
    rename_i hcheck
    obtain ⟨bss, hblocks, hsep, hprev, rfl⟩ := ih h
    obtain ⟨hne, hord, -, -, -⟩ := readBlock_eq_ok hread
    -- the last key of this block bounds its entries from above
    have hbehind : ∀ bs ∈ bss, ∀ b ∈ bs, ∀ a ∈ es, a.userKey < b.userKey := by
      intro bs hbs b hb a ha
      obtain ⟨last, hlast⟩ : ∃ last, es.getLast? = some last :=
        Option.ne_none_iff_exists'.mp (by simpa using hne)
      have hle := le_lastKeyOf_of_mem [] hord ha
      rw [← userKey_of_getLast? [] hlast] at hle
      exact hle.trans_lt (hprev last.userKey (by rw [hlast]; rfl) bs hbs b hb)
    have hfront : ∀ last, previous = some last → ∀ e ∈ es, last < e.userKey := by
      intro last hlast e he
      cases hes : es with
      | nil => exact absurd hes hne
      | cons front rest =>
        have hlt : last < front.userKey := by
          by_contra hnot
          exact hcheck ⟨last, hlast, front, by rw [hes]; rfl, hnot⟩
        rw [hes] at he hord
        exact hlt.trans_le (groupKey_le_of_mem hord he)
    refine ⟨es :: bss, .cons hread hblocks, ?_, ?_, ?_⟩
    · exact List.pairwise_cons.mpr ⟨fun bs hbs a ha b hb => hbehind bs hbs b hb a ha, hsep⟩
    · intro last hlast bs hbs b hb
      rcases List.mem_cons.mp hbs with rfl | hbs
      · exact hfront last hlast b hb
      · obtain ⟨a, ha⟩ := List.exists_mem_of_ne_nil es hne
        exact (hfront last hlast a ha).trans (hbehind bs hbs b hb a ha)
    · rw [List.flatten_cons, List.foldl_append]

/-- A table that passes `ValidateAndGetProperties` is a table of ordered entries with positive
sequences, and the result describes them. -/
theorem validate_sound {p : SSTableProperties} (h : r.validateAndGetProperties = .ok p) :
    ∃ bss, r.Valid bss ∧ bss.flatten ≠ [] ∧ (∀ e ∈ bss.flatten, 0 < e.sequence) ∧
      p = ⟨r.fileSize, bss.flatten.length, groupKey bss.flatten, lastKeyOf [] bss.flatten,
        minSequenceOf bss.flatten, maxSequenceOf bss.flatten⟩ := by
  unfold validateAndGetProperties at h
  split at h
  · cases h
  rename_i hne
  split at h
  · cases h
  rename_i q hq
  split at h
  · cases h
  obtain rfl := Except.ok.inj h
  obtain ⟨bss, hblocks, hsep, -, hprops⟩ := validateBlocks_sound hq
  rw [foldl_addProperties] at hprops
  have hall : ∀ bs ∈ bss, ∃ m, r.readBlock m = .ok bs := by
    intro bs hbs
    obtain ⟨m, -, hm⟩ := TableFile.forall₂_exists hblocks.flip hbs
    exact ⟨m, hm⟩
  have hnil : ∀ bs ∈ bss, bs ≠ [] := fun bs hbs => by
    obtain ⟨m, hm⟩ := hall bs hbs
    exact (readBlock_eq_ok hm).1
  refine ⟨bss, ⟨hblocks.imp fun m bs hm => ?_, hnil, fun bs hbs => ?_, hsep⟩, ?_, ?_, hprops⟩
  · obtain ⟨-, -, hfirst, hlast, -⟩ := readBlock_eq_ok hm
    exact ⟨hm, hfirst, hlast⟩
  · obtain ⟨m, hm⟩ := hall bs hbs
    exact (readBlock_eq_ok hm).2.1
  · intro hflat
    cases bss with
    | nil =>
      rw [List.forall₂_nil_right_iff] at hblocks
      exact hne hblocks
    | cons bs bss =>
      rw [List.flatten_cons, List.append_eq_nil_iff] at hflat
      exact hnil bs List.mem_cons_self hflat.1
  · intro e he
    obtain ⟨bs, hbs, hmem⟩ := List.mem_flatten.mp he
    obtain ⟨m, hm⟩ := hall bs hbs
    exact (readBlock_eq_ok hm).2.2.2.2 e hmem

end SSTableReader

end TinyLsm
