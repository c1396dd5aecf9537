import TinyLsm.Sstable.Reader

/-!
# Failures carry an error

Every failing result of the table builder and the table reader has a status that is not OK, so that a
caller that asks `status.ok()` sees the failure.
-/

namespace TinyLsm

variable {s : Status}

/-! ## Sections of a table -/

@[grind →] theorem readExactly_error {file : Bytes} {offset size : ℕ}
    (h : readExactly file offset size = .error s) : s.ok = false := by
  grind [readExactly]

@[grind →] theorem encodeEntries_error {ri i : ℕ} {previous : Option InternalEntry} {out : Bytes}
    {restarts : List ℕ} {entries : List InternalEntry}
    (h : encodeEntries ri i previous out restarts entries = .error s) : s.ok = false := by
  fun_induction encodeEntries <;> grind

@[grind →] theorem encodeDataBlock_error {entries : List InternalEntry} {ri : ℕ}
    (h : encodeDataBlock entries ri = .error s) : s.ok = false := by
  grind [encodeDataBlock]

@[grind →] theorem encodeIndex_error {blocks : List BlockMeta} (h : encodeIndex blocks = .error s) :
    s.ok = false := by
  unfold encodeIndex at h
  split at h <;> grind

@[grind →] theorem encodeProperties_error {p : TableProperties}
    (h : encodeProperties p = .error s) : s.ok = false := by
  grind [encodeProperties]

@[grind →] theorem parseRestarts_error {bytes : Bytes} {start remaining i : ℕ} {restarts : List ℕ}
    (h : parseRestarts bytes start remaining i restarts = .error s) : s.ok = false := by
  fun_induction parseRestarts <;> grind

@[grind →] theorem parseV2BlockLayout_error {bytes : Bytes}
    (h : parseV2BlockLayout bytes = .error s) : s.ok = false := by
  grind [parseV2BlockLayout]

@[grind →] theorem decodeV2Entries_error {bytes previous : Bytes} {layout : V2BlockLayout}
    {remaining position index : ℕ} {out : List InternalEntry}
    (h : decodeV2Entries bytes layout remaining position index previous out = .error s) :
    s.ok = false := by
  fun_induction decodeV2Entries <;> grind

@[grind →] theorem decodeV1Entries_error {bytes : Bytes} {start remaining i : ℕ}
    {out : List InternalEntry} (h : decodeV1Entries bytes start remaining i out = .error s) :
    s.ok = false := by
  fun_induction decodeV1Entries <;> grind

@[grind →] theorem decodeDataBlock_error {bytes : Bytes} {version : ℕ}
    (h : decodeDataBlock bytes version = .error s) : s.ok = false := by
  grind [decodeDataBlock, decodeDataBlockV1, decodeDataBlockV2]

@[grind →] theorem decodeBlockMetas_error {bytes : Bytes} {remaining p : ℕ} {out : List BlockMeta}
    (h : decodeBlockMetas bytes remaining p out = .error s) : s.ok = false := by
  fun_induction decodeBlockMetas <;> grind

@[grind →] theorem decodeIndex_error {bytes : Bytes} (h : decodeIndex bytes = .error s) :
    s.ok = false := by
  grind [decodeIndex]

@[grind →] theorem decodeProperties_error {bytes : Bytes} (h : decodeProperties bytes = .error s) :
    s.ok = false := by
  grind [decodeProperties]

@[grind →] theorem decodeFooter_error {bytes : Bytes} (h : decodeFooter bytes = .error s) :
    s.ok = false := by
  grind [decodeFooter]

/-! ## Builder -/

namespace SSTableBuilder

variable {b : SSTableBuilder}

@[grind →] theorem flushBlock_error (h : b.flushBlock = .error s) : s.ok = false := by
  grind [flushBlock]

@[grind →] theorem add_error {e : InternalEntry} (h : b.add e = .error s) : s.ok = false := by
  grind [add, push]

@[grind →] theorem addAll_error {entries : List InternalEntry} (h : (b.addAll entries).2 = some s) :
    s.ok = false := by
  fun_induction addAll <;> grind

@[grind →] theorem finish_error (h : b.finish.2 = .error s) : s.ok = false := by
  grind [finish]

end SSTableBuilder

@[grind →] theorem buildTable_error {blockBytes ri : ℕ} {entries : List InternalEntry}
    (h : (buildTable blockBytes ri entries).2 = .error s) : s.ok = false := by
  grind [buildTable]

/-! ## Reader -/

namespace SSTableReader

variable {r : SSTableReader}

@[grind →] theorem readFooter_error {file : Bytes} (h : readFooter file = .error s) :
    s.ok = false := by
  grind [readFooter]

@[grind →] theorem checkSections_error {file : Bytes} {footer : Footer}
    (h : checkSections file footer = .error s) : s.ok = false := by
  grind [checkSections]

@[grind →] theorem readProperties_error {file : Bytes} {footer : Footer}
    (h : readProperties file footer = .error s) : s.ok = false := by
  grind [readProperties]

@[grind →] theorem open_error {file : Bytes} {tableNumber : ℕ}
    (h : SSTableReader.open file tableNumber = .error s) : s.ok = false := by
  unfold SSTableReader.open at h
  (repeat' split at h) <;> grind

@[grind →] theorem readBlock_error {m : BlockMeta} (h : r.readBlock m = .error s) :
    s.ok = false := by
  unfold readBlock at h
  (repeat' split at h) <;> grind

@[grind →] theorem validateBlocks_error {previous : Option Bytes} {p : SSTableProperties}
    {blocks : List BlockMeta} (h : r.validateBlocks previous p blocks = .error s) : s.ok = false := by
  fun_induction validateBlocks <;> grind

@[grind →] theorem validateAndGetProperties_error (h : r.validateAndGetProperties = .error s) :
    s.ok = false := by
  unfold validateAndGetProperties at h
  (repeat' split at h) <;> grind

end SSTableReader

end TinyLsm
