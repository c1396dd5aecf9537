import TinyLsm.Db.Lifetime
import TinyLsm.Db.Schedule
import TinyLsm.Sstable.BlockCache

/-!
# Block cache coherence

A handle with its block cache and any number of reading threads. A thread runs a session, a program
of calls on tables that are or were live; a point lookup of the database is one, and so is the use of
a database iterator, which keeps its readers after a compaction replaced them. `Lookup` and `Insert`
of the cache are separate steps, so that the reads of other threads, flushes, compactions and
`EraseTable` come between.
-/

namespace TinyLsm

/-- A program of calls on tables. -/
abbrev Session (α : Type) := Interaction TableCall TableAnswer α

/-- Where a reading thread stands. -/
inductive ReadThread (α : Type) where
  | idle
  /-- Between two calls. -/
  | between (session rest : Session α)
  /-- In a call on `reader`; `k` continues with its answer. -/
  | inCall (session : Session α) (k : TableAnswer → Session α) (reader : SSTableReader)
      (rest : BlockReads TableAnswer)
  /-- In `ReadBlock`, behind a `Lookup` that found nothing. -/
  | missed (session : Session α) (k : TableAnswer → Session α) (reader : SSTableReader)
      (block : BlockMeta) (rest : Result (List InternalEntry) → BlockReads TableAnswer)
  | returned (session : Session α) (answer : α)

/-- A handle with its block cache and its readers. -/
structure CachedSystem (α : Type) where
  db : System
  cache : BlockCache
  /-- The tables that are or were live. -/
  readers : Set Table
  threads : ℕ → ReadThread α

namespace CachedSystem

variable {α : Type}

def setThread (s : CachedSystem α) (t : ℕ) (thread : ReadThread α) : CachedSystem α :=
  { s with threads := Function.update s.threads t thread }

/-- The key under which a reader caches a block. -/
def cacheKey (reader : SSTableReader) (m : BlockMeta) : BlockCacheKey := ⟨reader.tableNumber, m.offset⟩

/-- What `ReadBlock` leaves in the cache behind a miss. -/
def inserted (c : BlockCache) (reader : SSTableReader) (m : BlockMeta) (charge : ℕ) : BlockCache :=
  match reader.readBlock m with
  | .error _ => c
  | .ok block => c.insertBlock (cacheKey reader m) block charge

section
variable [EntrySize] (o : Options)

/-- One step of the handle, of the cache or of a reading thread. -/
inductive Step : CachedSystem α → CachedSystem α → Prop
  | handle {s : CachedSystem α} {db} (hstep : System.Step o false s.db db) :
      Step s { s with db, readers := Allocated.grown s.readers db.handle }
  | eraseTable {s : CachedSystem α} (number : ℕ) : Step s { s with cache := s.cache.eraseTable number }
  | start {s : CachedSystem α} {t} (session : Session α) (ht : s.threads t = .idle) :
      Step s (s.setThread t (.between session session))
  | call {s : CachedSystem α} {t session c k} (ht : s.threads t = .between session (.ask c k))
      (hreader : ∃ table ∈ s.readers, table.reader = c.source) (hsource : c.InSource) :
      Step s (s.setThread t (.inCall session k c.source c.reads))
  | hit {s : CachedSystem α} {t session k reader m rest block cache}
      (ht : s.threads t = .inCall session k reader (.ask m rest))
      (hlookup : s.cache.lookupBlock (cacheKey reader m) = some (block, cache)) :
      Step s { s.setThread t (.inCall session k reader (rest (.ok block))) with cache }
  | miss {s : CachedSystem α} {t session k reader m rest}
      (ht : s.threads t = .inCall session k reader (.ask m rest))
      (hlookup : s.cache.lookupBlock (cacheKey reader m) = none) :
      Step s (s.setThread t (.missed session k reader m rest))
  /-- The block is read and decoded, and inserted under the charge of its allocations. -/
  | readBlock {s : CachedSystem α} {t session k reader m rest} (charge : ℕ)
      (ht : s.threads t = .missed session k reader m rest) :
      Step s { s.setThread t (.inCall session k reader (rest (reader.readBlock m))) with
        cache := inserted s.cache reader m charge }
  | answer {s : CachedSystem α} {t session k reader a}
      (ht : s.threads t = .inCall session k reader (.done a)) :
      Step s (s.setThread t (.between session (k a)))
  | return {s : CachedSystem α} {t session a} (ht : s.threads t = .between session (.done a)) :
      Step s (s.setThread t (.returned session a))
  | next {s : CachedSystem α} {t session a} (ht : s.threads t = .returned session a) :
      Step s (s.setThread t .idle)

/-- The runs of a handle that was opened on a directory, with an enabled and empty cache. -/
def system (d : Directory) : TransitionSystem (CachedSystem α) where
  init s := 0 < o.blockCacheBytes ∧ ∃ listing sweep h, Handle.open o d listing sweep = .ok h ∧
    s = ⟨System.started h, .empty o.blockCacheBytes, { t | t ∈ h.tables }, fun _ => .idle⟩
  step := Step o

end

/-! ## Coherence -/

/-- Every cached block is one that a table with this number holds at this offset. -/
def Coherent (readers : Set Table) (c : BlockCache) : Prop :=
  ∀ e ∈ c.entries, ∃ t ∈ readers, ∃ m ∈ t.reader.blocks,
    e.key = cacheKey t.reader m ∧ t.reader.readBlock m = .ok e.value

/-- The answer of a session with `ReadBlock` reading the file every time. -/
def direct (session : Session α) : α := session.run TableCall.direct

/-- What is left to do leads to the direct answer, and reads blocks of a live or former table. -/
def Follows (readers : Set Table) : ReadThread α → Prop
  | .idle => True
  | .between session rest => direct rest = direct session
  | .inCall session k reader rest =>
    direct (k (rest.run reader.readBlock)) = direct session ∧ rest.Asks (· ∈ reader.blocks) ∧
      ∃ t ∈ readers, t.reader = reader
  | .missed session k reader m rest =>
    direct (k ((rest (reader.readBlock m)).run reader.readBlock)) = direct session ∧
      m ∈ reader.blocks ∧ (∀ a, (rest a).Asks (· ∈ reader.blocks)) ∧ ∃ t ∈ readers, t.reader = reader
  | .returned session a => a = direct session

/-- The invariant of a run. -/
structure Inv [EntrySize] (o : Options) (d : Directory) (s : CachedSystem α) : Prop where
  allocated : Allocated o d s.db.handle s.db.worker s.readers
  coherent : Coherent s.readers s.cache
  follows : ∀ t, Follows s.readers (s.threads t)

/-- A hit returns what the reader's own file holds. -/
theorem Coherent.hit {readers : Set Table} {c c' : BlockCache} (hc : Coherent readers c)
    (hunique : ∀ t ∈ readers, ∀ t' ∈ readers, t.number = t'.number → t = t')
    (hreadable : ∀ t ∈ readers, t.Readable) {t : Table} (ht : t ∈ readers) {m : BlockMeta}
    (hm : m ∈ t.reader.blocks) {block : List InternalEntry}
    (h : c.lookupBlock (cacheKey t.reader m) = some (block, c')) :
    t.reader.readBlock m = .ok block ∧ Coherent readers c' := by
  unfold BlockCache.lookupBlock at h
  split at h
  · cases h
  obtain ⟨⟨e, he, hkey, rfl⟩, hmem⟩ := LruCache.lookup_eq_some h
  refine ⟨?_, fun a ha => hc a ((hmem a).mp ha)⟩
  obtain ⟨u, hu, m', hm', hkey', hread⟩ := hc e he
  -- the number determines the reader, and the offset its block
  have hboth : cacheKey t.reader m = cacheKey u.reader m' := hkey.symm.trans hkey'
  simp only [cacheKey, BlockCacheKey.mk.injEq] at hboth
  obtain ⟨hnumber, hoffset⟩ := hboth
  have ht' := hreadable t ht
  rw [ht'.number_eq, (hreadable u hu).number_eq] at hnumber
  obtain rfl := hunique t ht u hu hnumber
  obtain ⟨properties, hvalidated⟩ := ht'.validated
  rw [SSTableReader.block_of_offset ht'.version hvalidated hm hm' hoffset]
  exact hread

theorem Coherent.inserted {readers : Set Table} {c : BlockCache} (hc : Coherent readers c)
    {t : Table} (ht : t ∈ readers) {m : BlockMeta} (hm : m ∈ t.reader.blocks) (charge : ℕ) :
    Coherent readers (inserted c t.reader m charge) := by
  unfold CachedSystem.inserted
  split
  · exact hc
  rename_i block hread
  unfold BlockCache.insertBlock
  split
  · exact hc
  · intro e he
    rcases LruCache.mem_insert he with he | rfl
    · exact hc e he
    · exact ⟨t, ht, m, hm, rfl, hread⟩

theorem Coherent.eraseTable {readers : Set Table} {c : BlockCache} (hc : Coherent readers c)
    (number : ℕ) : Coherent readers (c.eraseTable number) := by
  unfold BlockCache.eraseTable
  split
  · exact hc
  · exact fun e he => hc e (LruCache.mem_eraseWhere.mp he).1

theorem Coherent.mono {readers readers' : Set Table} {c : BlockCache} (hc : Coherent readers c)
    (h : readers ⊆ readers') : Coherent readers' c := fun e he =>
  let ⟨t, ht, rest⟩ := hc e he
  ⟨t, h ht, rest⟩

theorem Follows.mono {readers readers' : Set Table} {thread : ReadThread α}
    (hf : Follows readers thread) (h : readers ⊆ readers') : Follows readers' thread := by
  cases thread with
  | idle | between | returned => exact hf
  | inCall =>
    obtain ⟨h1, h2, t, ht, h3⟩ := hf
    exact ⟨h1, h2, t, h ht, h3⟩
  | missed =>
    obtain ⟨h1, h2, h3, t, ht, h4⟩ := hf
    exact ⟨h1, h2, h3, t, h ht, h4⟩

namespace Inv

variable [EntrySize] {o : Options} {d : Directory} {s s' : CachedSystem α}

/-- Only one thread and the cache change. -/
theorem setThread (hi : Inv o d s) {t : ℕ} {thread : ReadThread α} {c : BlockCache}
    (hc : Coherent s.readers c) (hf : Follows s.readers thread) :
    Inv o d { s.setThread t thread with cache := c } := by
  refine ⟨hi.allocated, hc, fun u => ?_⟩
  show Follows s.readers (Function.update s.threads t thread u)
  by_cases hu : u = t
  · rw [hu, Function.update_self]
    exact hf
  · rw [Function.update_of_ne hu]
    exact hi.follows u

theorem step (hstep : Step o s s') (hi : Inv o d s) : Inv o d s' := by
  cases hstep with
  | handle hstep =>
    exact ⟨hi.allocated.step hstep, hi.coherent.mono Set.subset_union_left,
      fun t => (hi.follows t).mono Set.subset_union_left⟩
  | eraseTable number => exact ⟨hi.allocated, hi.coherent.eraseTable number, hi.follows⟩
  | start session ht => exact hi.setThread hi.coherent rfl
  | @call t session c k ht hreader hsource =>
    have hf := hi.follows t
    rw [ht] at hf
    refine hi.setThread hi.coherent ⟨?_, TableCall.asks_reads hsource, hreader⟩
    rw [TableCall.run_reads]
    exact hf
  | @hit t session k reader m rest block cache ht hlookup =>
    have hf := hi.follows t
    rw [ht] at hf
    obtain ⟨hdirect, hasks, table, htable, rfl⟩ := hf
    obtain ⟨hread, hc⟩ := hi.coherent.hit hi.allocated.unique hi.allocated.readable htable
      hasks.1 hlookup
    refine hi.setThread hc ⟨?_, hasks.2 _, table, htable, rfl⟩
    rw [← hread]
    exact hdirect
  | @miss t session k reader m rest ht hlookup =>
    have hf := hi.follows t
    rw [ht] at hf
    obtain ⟨hdirect, hasks, hreader⟩ := hf
    exact hi.setThread hi.coherent ⟨hdirect, hasks.1, hasks.2, hreader⟩
  | @readBlock t session k reader m rest charge ht =>
    have hf := hi.follows t
    rw [ht] at hf
    obtain ⟨hdirect, hm, hasks, table, htable, rfl⟩ := hf
    exact hi.setThread (hi.coherent.inserted htable hm charge)
      ⟨hdirect, hasks _, table, htable, rfl⟩
  | @answer t session k reader a ht =>
    have hf := hi.follows t
    rw [ht] at hf
    exact hi.setThread hi.coherent hf.1
  | @«return» t session a ht =>
    have hf := hi.follows t
    rw [ht] at hf
    exact hi.setThread hi.coherent hf
  | next ht => exact hi.setThread hi.coherent trivial

theorem of_reachable (hd : d.Written) (hs : (system o d).Reachable s) : Inv o d s := by
  refine hs.invariant ?_ fun _ _ => step
  rintro s ⟨-, listing, sweep, h, hopen, rfl⟩
  exact ⟨Allocated.opened hopen hd.sound, by nofun, fun _ => trivial⟩

end Inv

/-! ## Sessions return -/

section
variable [EntrySize] {o : Options} {d : Directory} {s : CachedSystem α}

/-- The session asks live or former tables, and moves iterators they returned. -/
def Permitted (readers : Set Table) : Session α → Prop
  | .done _ => True
  | .ask c k => (∃ t ∈ readers, t.reader = c.source) ∧ c.InSource ∧ Permitted readers (k c.direct)

/-- One `ReadBlock` call ends, with the block of the reader's own file. -/
theorem readBlock_completes (hi : Inv o d s) {t : ℕ} {session : Session α}
    {k : TableAnswer → Session α} {reader : SSTableReader} {m : BlockMeta}
    {rest : Result (List InternalEntry) → BlockReads TableAnswer}
    (ht : s.threads t = .inCall session k reader (.ask m rest)) :
    ∃ s', (system o d).Run s s' ∧ s'.readers = s.readers ∧
      s'.threads t = .inCall session k reader (rest (reader.readBlock m)) := by
  have hf := hi.follows t
  rw [ht] at hf
  obtain ⟨-, hasks, table, htable, rfl⟩ := hf
  cases hlookup : s.cache.lookupBlock (cacheKey table.reader m) with
  | none =>
    have hmiss : (system o d).Run s (s.setThread t (.missed session k table.reader m rest)) :=
      TransitionSystem.Run.refl.tail (.miss ht hlookup)
    have hmissed : (s.setThread t (.missed session k table.reader m rest)).threads t =
        .missed session k table.reader m rest := Function.update_self ..
    exact ⟨_, hmiss.tail (.readBlock 0 hmissed), rfl, Function.update_self ..⟩
  | some found =>
    obtain ⟨block, cache⟩ := found
    obtain ⟨hread, -⟩ := hi.coherent.hit hi.allocated.unique hi.allocated.readable htable hasks.1
      hlookup
    rw [hread]
    exact ⟨_, TransitionSystem.Run.refl.tail (.hit ht hlookup), rfl, Function.update_self ..⟩

/-- A call on a table ends. -/
theorem call_completes (hi : Inv o d s) {t : ℕ} {session : Session α}
    {k : TableAnswer → Session α} {reader : SSTableReader} {rest : BlockReads TableAnswer}
    (ht : s.threads t = .inCall session k reader rest) :
    ∃ s', (system o d).Run s s' ∧ s'.readers = s.readers ∧
      s'.threads t = .between session (k (rest.run reader.readBlock)) := by
  induction rest generalizing s with
  | done a => exact ⟨_, TransitionSystem.Run.refl.tail (.answer ht), rfl, Function.update_self ..⟩
  | ask m rest ih =>
    obtain ⟨s₁, hrun, hreaders, ht₁⟩ := readBlock_completes hi ht
    have hi₁ : Inv o d s₁ := hrun.keeps (fun _ _ => Inv.step) hi
    obtain ⟨s₂, hrun₂, hreaders₂, ht₂⟩ := ih _ hi₁ ht₁
    exact ⟨s₂, hrun.trans hrun₂, hreaders₂.trans hreaders, ht₂⟩

/-- A permitted session returns the direct answer when its thread goes on alone. -/
theorem session_completes (hi : Inv o d s) {t : ℕ} {session rest : Session α}
    (ht : s.threads t = .between session rest) (hp : Permitted s.readers rest) :
    ∃ s', (system o d).Run s s' ∧ s'.threads t = .returned session (direct rest) := by
  induction rest generalizing s with
  | done a => exact ⟨_, TransitionSystem.Run.refl.tail (.return ht), Function.update_self ..⟩
  | ask c k ih =>
    obtain ⟨hreader, hsource, hrest⟩ := hp
    have hcall : (system o d).Run s (s.setThread t (.inCall session k c.source c.reads)) :=
      TransitionSystem.Run.refl.tail (.call ht hreader hsource)
    obtain ⟨s₁, hrun₁, hreaders, ht₁⟩ :=
      call_completes (hcall.keeps (fun _ _ => Inv.step) hi) (t := t) (Function.update_self ..)
    rw [TableCall.run_reads] at ht₁
    have hi₁ : Inv o d s₁ := (hcall.trans hrun₁).keeps (fun _ _ => Inv.step) hi
    have hp₁ : Permitted s₁.readers (k c.direct) := by
      rw [hreaders]
      exact hrest
    obtain ⟨s₂, hrun₂, ht₂⟩ := ih c.direct hi₁ ht₁ hp₁
    exact ⟨s₂, (hcall.trans hrun₁).trans hrun₂, ht₂⟩

/-- In every run over a directory the program wrote, a block found in the cache is what the reader's
own file holds at this place of its index. Every session that returned has the answer it would have
with `ReadBlock` never using the cache, and every permitted session can return. -/
theorem block_cache_is_coherent (hd : d.Written) (hs : (system o d).Reachable s) :
    (∀ t ∈ s.readers, ∀ m ∈ t.reader.blocks, ∀ block cache,
      s.cache.lookupBlock ⟨t.reader.tableNumber, m.offset⟩ = some (block, cache) →
      t.reader.readBlock m = .ok block) ∧
    (∀ i session a, s.threads i = .returned session a → a = session.run TableCall.direct) ∧
    ∀ i session, s.threads i = .idle → Permitted s.readers session →
      ∃ s', (system o d).Run s s' ∧
        s'.threads i = .returned session (session.run TableCall.direct) := by
  have hi := Inv.of_reachable hd hs
  refine ⟨fun t ht m hm block cache h => ?_, fun i session a h => ?_, fun i session h hp => ?_⟩
  · exact (hi.coherent.hit hi.allocated.unique hi.allocated.readable ht hm h).1
  · have hf := hi.follows i
    rw [h] at hf
    exact hf
  · have hstart : (system o d).Run s (s.setThread i (.between session session)) :=
      TransitionSystem.Run.refl.tail (.start session h)
    obtain ⟨s', hrun, ht⟩ := session_completes (hstart.keeps (fun _ _ => Inv.step) hi) (t := i)
      (Function.update_self ..) hp
    exact ⟨s', hstart.trans hrun, ht⟩

/-- The handle runs while the readers wait. -/
theorem run_handle {db db' : System} (hrun : (System.system o false).Run db db') (hdb : s.db = db)
    (hlive : ∀ t ∈ db.handle.tables, t ∈ s.readers) :
    ∃ readers, (∀ t ∈ db'.handle.tables, t ∈ readers) ∧
      (system o d).Run s { s with db := db', readers } := by
  induction hrun with
  | refl =>
    subst hdb
    exact ⟨s.readers, hlive, .refl⟩
  | tail hrun hstep ih =>
    obtain ⟨readers, -, hrun'⟩ := ih
    exact ⟨_, fun t ht => .inr ht, hrun'.tail (.handle hstep)⟩

end

section
variable [EntrySize] {o : Options} {d : Directory} {s : CachedSystem TableAnswer} {i q : ℕ}
  {key : Bytes} {t : Table} {m : BlockMeta}
  {rest : Result (List InternalEntry) → BlockReads TableAnswer}

omit [EntrySize] in
/-- A lookup asks for the block of the key, and searches it. -/
theorem exists_reads_get {r : SSTableReader} {ms : List BlockMeta}
    (hdrop : r.blocks.dropWhile (·.lastKey < key) = m :: ms) (hkey : ¬ key < m.firstKey) :
    ∃ rest, (TableCall.get r key q).reads = .ask m rest ∧
      ∀ es, rest (.ok es) = .done (.entry (SSTableReader.searchDecoded key q es)) := by
  rw [TableCall.reads, SSTableReader.getReads, hdrop]
  simp only [if_neg hkey]
  exact ⟨_, rfl, fun _ => rfl⟩

/-- A thread that begins a lookup asks for the block of the key. -/
theorem lookup_asks (hidle : s.threads i = .idle) (ht : t ∈ s.readers)
    (hreads : (TableCall.get t.reader key q).reads = .ask m rest) :
    ∃ s', (system o d).Run s s' ∧ s'.readers = s.readers ∧ s'.cache = s.cache ∧
      (∀ j ≠ i, s'.threads j = s.threads j) ∧
      s'.threads i = .inCall (.ask (.get t.reader key q) .done) .done t.reader (.ask m rest) := by
  let session : Session TableAnswer := .ask (.get t.reader key q) .done
  have hstart : (system o d).Run s (s.setThread i (.between session session)) :=
    TransitionSystem.Run.refl.tail (.start session hidle)
  have hcall := hstart.tail (.call (Function.update_self ..) ⟨t, ht, rfl⟩ trivial)
  refine ⟨_, hcall, rfl, rfl, fun j hj => ?_, ?_⟩
  · exact (Function.update_of_ne hj ..).trans (Function.update_of_ne hj ..)
  · rw [← hreads]
    exact Function.update_self ..

/-- The first lookup of a block puts it into the cache. -/
theorem miss_inserts {capacity : ℕ} {block : List InternalEntry}
    (hcache : s.cache = .empty capacity) (hpos : 0 < capacity) (hidle : s.threads i = .idle)
    (ht : t ∈ s.readers) (hreads : (TableCall.get t.reader key q).reads = .ask m rest)
    (hread : t.reader.readBlock m = .ok block) :
    ∃ s' cache, (system o d).Run s s' ∧ s'.readers = s.readers ∧
      (∀ j ≠ i, s'.threads j = s.threads j) ∧
      s'.cache.lookupBlock (cacheKey t.reader m) = some (block, cache) := by
  obtain ⟨s₀, hrun, hreaders, hcache₀, hothers, hasks⟩ :=
    lookup_asks (o := o) (d := d) hidle ht hreads
  rw [hcache] at hcache₀
  have hcapacity : s₀.cache.capacity ≠ 0 := hcache₀ ▸ hpos.ne'
  have hfits : 1 ≤ s₀.cache.capacity := Nat.one_le_iff_ne_zero.mpr hcapacity
  have hnone : s₀.cache.entries.find? (·.key = cacheKey t.reader m) = none := by
    rw [hcache₀]
    rfl
  have hempty : s₀.cache.lookupBlock (cacheKey t.reader m) = none :=
    (if_neg hcapacity).trans (LruCache.lookup_of_none hnone)
  have hinserted : inserted s₀.cache t.reader m 1 =
      s₀.cache.push (cacheKey t.reader m) block 1 hfits hnone := by
    rw [inserted, hread]
    exact (if_neg hcapacity).trans (LruCache.insert_of_none hfits hnone)
  obtain ⟨cache, hfound⟩ := LruCache.exists_lookup_push (v := block) hfits hnone
  refine ⟨_, cache, (hrun.tail (.miss hasks hempty)).tail (.readBlock 1 (Function.update_self ..)),
    hreaders, fun j hj => ?_, ?_⟩
  · exact ((Function.update_of_ne hj ..).trans (Function.update_of_ne hj ..)).trans (hothers j hj)
  · show (inserted s₀.cache t.reader m 1).lookupBlock (cacheKey t.reader m) = _
    rw [hinserted]
    exact (if_neg hcapacity).trans hfound

/-- A lookup of a cached block returns from the cache. -/
theorem hit_returns {block : List InternalEntry} {cache : BlockCache} {a : TableAnswer}
    (hidle : s.threads i = .idle) (ht : t ∈ s.readers)
    (hreads : (TableCall.get t.reader key q).reads = .ask m rest)
    (hlookup : s.cache.lookupBlock (cacheKey t.reader m) = some (block, cache))
    (hrest : rest (.ok block) = .done a) :
    ∃ s', (system o d).Run s s' ∧ s'.cache = cache ∧
      s'.threads i = .returned (.ask (.get t.reader key q) .done) a := by
  obtain ⟨s₀, hrun, -, hcache, -, hasks⟩ := lookup_asks (o := o) (d := d) hidle ht hreads
  have hhit := hrun.tail (.hit hasks (hcache.symm ▸ hlookup))
  rw [hrest] at hhit
  have hanswer := hhit.tail (.answer (Function.update_self ..))
  exact ⟨_, hanswer.tail (.return (Function.update_self ..)), rfl, Function.update_self ..⟩

end

/-- The flush of one put makes a table of one block. One thread looks the key up and reads the block,
another one finds it in the cache. -/
theorem block_cache_is_coherent_hit :
    let _ := entrySize80
    ∃ (s s' : CachedSystem TableAnswer) (t : Table) (m : BlockMeta) (block : List InternalEntry)
      (cache : BlockCache), (system { memtableBytes := 1 } .empty).Reachable s ∧ t ∈ s.readers ∧
      m ∈ t.reader.blocks ∧ s.cache.lookupBlock (cacheKey t.reader m) = some (block, cache) ∧
      t.reader.readBlock m = .ok block ∧ (system { memtableBytes := 1 } .empty).Run s s' ∧
      s'.cache = cache ∧ s'.threads 1 = .returned (.ask (.get t.reader [1] 1) .done)
        (.entry (t.reader.get true [1] 1)) := by
  intro _
  let o : Options := { memtableBytes := 1 }
  let ms : List Move := .write [WriterQueue.firstRequest] :: List.replicate 8 (.worker [])
  have htests : ((System.openThen o .empty ⟨false, []⟩ ⟨none, fun _ => false⟩ ms).map fun s =>
      decide (s.handle.tables.map (fun t => t.reader.blocks) = [[⟨[1], [1], 0, 39⟩]] ∧
        ∀ t ∈ s.handle.tables,
          t.reader.readBlock ⟨[1], [1], 0, 39⟩ = .ok [⟨[1], 1, .value, [2]⟩])) = some true := by
    decide +kernel
  obtain ⟨db, hdb, htests⟩ := Option.map_eq_some_iff.mp htests
  obtain ⟨h, hopen, hmoves⟩ := System.openThen_eq_some hdb
  obtain ⟨hblocks, hreads⟩ := of_decide_eq_true htests
  obtain ⟨t, htables, hblocks⟩ := List.map_eq_singleton_iff.mp hblocks
  let s₀ : CachedSystem TableAnswer :=
    ⟨System.started h, .empty o.blockCacheBytes, { t | t ∈ h.tables }, fun _ => .idle⟩
  have hinit : (system o .empty).Reachable s₀ :=
    .of_init ⟨by decide, ⟨false, []⟩, ⟨none, fun _ => false⟩, h, hopen, rfl⟩
  have hwritten : Directory.empty.Written := .new rfl fun _ => rfl
  have hlive₀ : ∀ t ∈ (System.started h).handle.tables, t ∈ s₀.readers := fun _ ht => ht
  obtain ⟨readers, hlive, hrun⟩ : ∃ readers, (∀ t ∈ db.handle.tables, t ∈ readers) ∧
      (system o .empty).Run s₀ { s₀ with db, readers } :=
    run_handle (System.moves_run hmoves) rfl hlive₀
  have hlisted : t ∈ db.handle.tables := by simp [htables]
  have ht := hlive t hlisted
  have hdrop : t.reader.blocks.dropWhile (·.lastKey < ([1] : Bytes)) = [⟨[1], [1], 0, 39⟩] := by
    rw [hblocks]
    decide
  obtain ⟨rest, hasks, hrest⟩ := exists_reads_get (q := 1) hdrop (by decide)
  obtain ⟨s₁, cache, hrun₁, hreaders, hothers, hlookup⟩ := miss_inserts (o := o) (d := .empty)
    (s := { s₀ with db, readers }) (i := 0) rfl (by decide) rfl ht hasks (hreads t hlisted)
  obtain ⟨s₂, hrun₂, hcache, hreturned⟩ := hit_returns (o := o) (d := .empty) (i := 1)
    (hothers 1 one_ne_zero) (hreaders ▸ ht) hasks hlookup (hrest _)
  have hreach := (hinit.run hrun).run hrun₁
  obtain ⟨hcoherent, -, -⟩ := block_cache_is_coherent hwritten hreach
  have hm : (⟨[1], [1], 0, 39⟩ : BlockMeta) ∈ t.reader.blocks := by simp [hblocks]
  have hread := hcoherent t (hreaders ▸ ht) _ hm _ _ hlookup
  obtain ⟨-, hdirect, -⟩ := block_cache_is_coherent hwritten (hreach.run hrun₂)
  rw [hdirect 1 _ _ hreturned] at hreturned
  exact ⟨s₁, s₂, t, _, _, cache, hreach, hreaders ▸ ht, hm, hlookup, hread, hrun₂, hcache,
    hreturned⟩

end CachedSystem

end TinyLsm
