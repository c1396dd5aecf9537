import TinyLsm.Db.Creation

/-!
# First creation can be retried

What `Open` leaves of a directory of unrelated files, however its requests fail and wherever a crash
cuts it off: the WAL is created before `MANIFEST.tmp`, nothing is written to it, and `MANIFEST` is
only ever the complete and synced file. `InspectInitialFiles` accepts all of it.
-/

namespace TinyLsm

namespace Creation

open CrashDisk

/-- A name that is none of the database's. -/
def Unrelated (name : String) : Prop :=
  name ≠ "LOCK" ∧ name ≠ "MANIFEST" ∧ name ≠ "MANIFEST.tmp" ∧ parseNumberedFileName name = none

/-- A directory at rest that holds only unrelated files. -/
structure Starting (d : Disk String) : Prop where
  settled : d.earlier = []
  synced : ∀ i, (d.inodes i).older = []
  numbered : ∀ name i, d.entries.lookup name = some i → i < d.fresh
  unrelated : ∀ name ∈ d.entries, Unrelated name

/-- What an inode is for. `MANIFEST.tmp` becomes `MANIFEST`. -/
inductive Role where
  | unrelated
  | lock
  | wal
  | manifest
deriving DecidableEq, Repr

/-- The role of a name. -/
def role (name : String) : Role :=
  if name = "LOCK" then .lock
  else if name = walFileName 1 then .wal
  else if name = "MANIFEST.tmp" ∨ name = "MANIFEST" then .manifest
  else .unrelated

/-- The bytes of the initial Manifest. -/
def initialBytes : Bytes := manifestFrame initialManifest.proto

/-- Entries that creation may leave. -/
structure Stage (owner : ℕ → Role) (d₀ d : Disk String) (e : Entries String) : Prop where
  kept : ∀ name i, d₀.entries.lookup name = some i → e.lookup name = some i
  known : ∀ name ∈ e, name ∈ d₀.entries ∨ role name ≠ .unrelated
  owned : ∀ name i, e.lookup name = some i → owner i = role name ∧ i < d.fresh
  order : "MANIFEST.tmp" ∈ e ∨ "MANIFEST" ∈ e → walFileName 1 ∈ e
  manifest : ∀ i, e.lookup "MANIFEST" = some i → d.inodes i = ⟨initialBytes, []⟩

/-- A directory that creation may leave. -/
structure Creating (owner : ℕ → Role) (d₀ d : Disk String) : Prop where
  now : Stage owner d₀ d d.entries
  before : ∀ e ∈ d.earlier, Stage owner d₀ d e
  wal : ∀ i, owner i = .wal → i < d.fresh → (d.inodes i).data = [] ∧ ∀ c ∈ (d.inodes i).older, c = []
  unrelated : ∀ i, owner i = .unrelated → i < d.fresh → d.inodes i = d₀.inodes i
  last : "MANIFEST" ∉ d.entries → ∀ e ∈ d.earlier, "MANIFEST" ∉ e

/-- The invariant of creation. -/
def Inv (d₀ d : Disk String) : Prop := ∃ owner, Creating owner d₀ d

variable {owner : ℕ → Role} {d₀ d : Disk String}

/-! ## Names -/

theorem walFileName_one : walFileName 1 = "000001.wal" := by decide

theorem parse_wal : parseNumberedFileName (walFileName 1) = some ⟨1, .wal⟩ := by decide

/-- The other names of creation are not numbered. -/
theorem parse_fixed :
    parseNumberedFileName "LOCK" = none ∧ parseNumberedFileName "MANIFEST.tmp" = none ∧
      parseNumberedFileName "MANIFEST" = none := by
  decide

theorem walFileName_ne :
    walFileName 1 ≠ "LOCK" ∧ walFileName 1 ≠ "MANIFEST.tmp" ∧ walFileName 1 ≠ "MANIFEST" := by
  simp [walFileName_one]

theorem role_unrelated {name : String} (h : Unrelated name) : role name = .unrelated := by
  obtain ⟨hlock, hmanifest, htemp, hparse⟩ := h
  have hwal : name ≠ walFileName 1 := by
    rintro rfl
    rw [parse_wal] at hparse
    cases hparse
  simp [role, hlock, hwal, htemp, hmanifest]

@[simp] theorem role_lock : role "LOCK" = .lock := by simp [role]
@[simp] theorem role_temp : role "MANIFEST.tmp" = .manifest := by
  simp [role, walFileName_ne.2.1.symm]
@[simp] theorem role_manifest : role "MANIFEST" = .manifest := by
  simp [role, walFileName_ne.2.2.symm]

/-- The names that are not unrelated. -/
theorem role_ne_unrelated {name : String} (h : role name ≠ .unrelated) :
    name = "LOCK" ∨ name = walFileName 1 ∨ name = "MANIFEST.tmp" ∨ name = "MANIFEST" := by
  by_contra hnot
  simp only [not_or] at hnot
  exact h (by simp [role, hnot])

/-! ## Changes that keep the invariant -/

theorem Starting.inv (h : Starting d₀) : Inv d₀ d₀ := by
  refine ⟨fun _ => .unrelated, ⟨fun _ _ h => h, fun name hname => .inl hname, ?_, ?_, ?_⟩, ?_, ?_,
    fun _ _ _ => rfl, ?_⟩
  · intro name i hlookup
    have hmem : name ∈ d₀.entries := AList.lookup_isSome.mp (by rw [hlookup]; rfl)
    exact ⟨(role_unrelated (h.unrelated name hmem)).symm, h.numbered name i hlookup⟩
  · rintro (hmem | hmem)
    · exact absurd rfl (h.unrelated _ hmem).2.2.1
    · exact absurd rfl (h.unrelated _ hmem).2.1
  · intro i hlookup
    have hmem : "MANIFEST" ∈ d₀.entries := AList.lookup_isSome.mp (by rw [hlookup]; rfl)
    exact absurd rfl (h.unrelated _ hmem).2.1
  · rw [h.settled]
    simp
  · intro i hi
    cases hi
  · rw [h.settled]
    simp

/-- An inode of the database changes: not the one of `MANIFEST`, and the WAL stays empty. -/
theorem Creating.modify (h : Creating owner d₀ d) {i : ℕ} {f : Inode → Inode}
    (hrole : owner i ≠ .unrelated)
    (hwal : owner i = .wal → (d.inodes i).data = [] → (∀ c ∈ (d.inodes i).older, c = []) →
      (f (d.inodes i)).data = [] ∧ ∀ c ∈ (f (d.inodes i)).older, c = [])
    (hmanifest : owner i = .manifest → "MANIFEST" ∉ d.entries) :
    Creating owner d₀ (d.modify i f) := by
  -- no entries, present or earlier, call the inode `MANIFEST`
  have hstage : ∀ e, Stage owner d₀ d e → ("MANIFEST" ∉ d.entries → "MANIFEST" ∉ e) →
      Stage owner d₀ (d.modify i f) e := by
    intro e he hnone
    refine ⟨he.kept, he.known, he.owned, he.order, fun j hj => ?_⟩
    have hne : j ≠ i := by
      rintro rfl
      have howner := (he.owned _ _ hj).1
      rw [role_manifest] at howner
      exact hnone (hmanifest howner) (AList.lookup_isSome.mp (by rw [hj]; rfl))
    rw [Disk.modify_inodes_ne _ hne]
    exact he.manifest j hj
  refine ⟨hstage _ h.now id, fun e he => hstage e (h.before e he) fun hnone => h.last hnone e he,
    fun j hj hfresh => ?_, fun j hj hfresh => ?_, h.last⟩
  · by_cases hji : j = i
    · subst hji
      rw [Disk.modify_inodes_self]
      obtain ⟨hdata, holder⟩ := h.wal j hj hfresh
      exact hwal hj hdata holder
    · rw [Disk.modify_inodes_ne _ hji]
      exact h.wal j hj hfresh
  · have hji : j ≠ i := by
      rintro rfl
      exact hrole hj
    rw [Disk.modify_inodes_ne _ hji]
    exact h.unrelated j hj hfresh

/-- A file of the database is created; `MANIFEST.tmp` only behind the WAL. -/
theorem Creating.create (h : Creating owner d₀ d) {name : String} (hnew : name ∉ d.entries)
    (hrole : role name ≠ .unrelated) (hname : name ≠ "MANIFEST")
    (horder : name = "MANIFEST.tmp" → walFileName 1 ∈ d.entries) :
    Creating (Function.update owner d.fresh (role name)) d₀ (d.create name) := by
  have hold : ∀ {i}, i < d.fresh →
      Function.update owner d.fresh (role name) i = owner i ∧
        Function.update d.inodes d.fresh ⟨[], []⟩ i = d.inodes i := by
    intro i hi
    exact ⟨Function.update_of_ne (by omega) _ _, Function.update_of_ne (by omega) _ _⟩
  have hstage : ∀ e, Stage owner d₀ d e →
      Stage (Function.update owner d.fresh (role name)) d₀ (d.create name) e := by
    intro e he
    refine ⟨he.kept, he.known, fun n i hn => ?_, he.order, fun i hi => ?_⟩
    · obtain ⟨howner, hfresh⟩ := he.owned n i hn
      exact ⟨by rw [(hold hfresh).1, howner], Nat.lt_succ_of_lt hfresh⟩
    · have hfresh := (he.owned _ _ hi).2
      exact ((hold hfresh).2).trans (he.manifest i hi)
  refine ⟨?_, ?_, fun i hi hfresh => ?_, fun i hi hfresh => ?_, fun hnone e he => ?_⟩
  · refine ⟨fun n i hn => ?_, fun n hn => ?_, fun n i hn => ?_, fun hmem => ?_, fun i hi => ?_⟩
    · have hnow := h.now.kept n i hn
      have hne : n ≠ name := by
        rintro rfl
        exact hnew (AList.lookup_isSome.mp (by rw [hnow]; rfl))
      exact (AList.lookup_insert_ne hne).trans hnow
    · rcases (AList.mem_insert _).mp hn with rfl | hn
      · exact .inr hrole
      · exact h.now.known n hn
    · by_cases hne : n = name
      · subst hne
        have hi := (AList.lookup_insert (s := d.entries)).symm.trans hn
        obtain rfl := Option.some.inj hi
        exact ⟨Function.update_self _ _ _, Nat.lt_succ_self _⟩
      · obtain ⟨howner, hfresh⟩ := h.now.owned n i ((AList.lookup_insert_ne hne).symm.trans hn)
        exact ⟨by rw [(hold hfresh).1, howner], Nat.lt_succ_of_lt hfresh⟩
    · refine (AList.mem_insert _).mpr (.inr ?_)
      rcases hmem with hmem | hmem
      · rcases (AList.mem_insert _).mp hmem with heq | hmem
        · exact horder heq.symm
        · exact h.now.order (.inl hmem)
      · rcases (AList.mem_insert _).mp hmem with heq | hmem
        · exact absurd heq.symm hname
        · exact h.now.order (.inr hmem)
    · have hi' := (AList.lookup_insert_ne hname.symm).symm.trans hi
      have hfresh := (h.now.owned _ _ hi').2
      exact ((hold hfresh).2).trans (h.now.manifest i hi')
  · intro e he
    rcases List.mem_cons.mp he with rfl | he
    · exact hstage _ h.now
    · exact hstage e (h.before e he)
  · show (Function.update d.inodes d.fresh ⟨[], []⟩ i).data = [] ∧ _
    by_cases hi' : i = d.fresh
    · subst hi'
      simp [Disk.create]
    · have hlt : i < d.fresh := by
        have : i < d.fresh + 1 := hfresh
        omega
      rw [(hold hlt).1] at hi
      have hwal := h.wal i hi hlt
      rw [← (hold hlt).2] at hwal
      exact hwal
  · have hne : i ≠ d.fresh := by
      rintro rfl
      rw [Function.update_self] at hi
      exact hrole hi
    have hlt : i < d.fresh := by
      have : i < d.fresh + 1 := hfresh
      omega
    rw [(hold hlt).1] at hi
    exact ((hold hlt).2).trans (h.unrelated i hi hlt)
  · have hnone' : "MANIFEST" ∉ d.entries := fun hmem =>
      hnone ((AList.mem_insert _).mpr (.inr hmem))
    rcases List.mem_cons.mp he with rfl | he
    · exact hnone'
    · exact h.last hnone' e he

/-- The entries change; the inodes stay. -/
theorem Creating.setEntries (h : Creating owner d₀ d) {e : Entries String}
    (hstage : Stage owner d₀ d e) (hmono : "MANIFEST" ∉ e → "MANIFEST" ∉ d.entries) :
    Creating owner d₀ (d.setEntries e) := by
  have hsame : ∀ e', Stage owner d₀ d e' → Stage owner d₀ (d.setEntries e) e' := fun e' he =>
    ⟨he.kept, he.known, he.owned, he.order, he.manifest⟩
  refine ⟨hsame e hstage, fun e' he => ?_, h.wal, h.unrelated, fun hnone e' he => ?_⟩
  · rcases List.mem_cons.mp he with rfl | he
    · exact hsame _ h.now
    · exact hsame e' (h.before e' he)
  · rcases List.mem_cons.mp he with rfl | he
    · exact hmono hnone
    · exact h.last (hmono hnone) e' he

/-- The complete and synced `MANIFEST.tmp` becomes `MANIFEST`. -/
theorem Creating.rename (h : Creating owner d₀ d) {i : ℕ}
    (htemp : d.entries.lookup "MANIFEST.tmp" = some i) (hinode : d.inodes i = ⟨initialBytes, []⟩)
    (hstart : Starting d₀) : Creating owner d₀ (d.rename "MANIFEST.tmp" "MANIFEST" i) := by
  have hother : ∀ {name : String}, name ≠ "MANIFEST" → name ≠ "MANIFEST.tmp" →
      AList.lookup name ((d.entries.erase "MANIFEST.tmp").insert "MANIFEST" i) =
        d.entries.lookup name := fun hmanifest htmp => by
    rw [AList.lookup_insert_ne hmanifest, AList.lookup_erase_ne htmp]
  have hwal : walFileName 1 ∈ d.entries :=
    h.now.order (.inl (AList.lookup_isSome.mp (by rw [htemp]; rfl)))
  refine h.setEntries ⟨fun name j hj => ?_, fun name hname => ?_, fun name j hj => ?_, fun _ => ?_,
    fun j hj => ?_⟩ fun hnone => absurd ((AList.mem_insert _).mpr (.inl rfl)) hnone
  · have hmem : name ∈ d₀.entries := AList.lookup_isSome.mp (by rw [hj]; rfl)
    obtain ⟨-, hmanifest, htmp, -⟩ := hstart.unrelated name hmem
    rw [hother hmanifest htmp]
    exact h.now.kept name j hj
  · rcases (AList.mem_insert _).mp hname with rfl | hname
    · exact .inr (by simp)
    · exact h.now.known name (AList.mem_erase.mp hname).2
  · by_cases hmanifest : name = "MANIFEST"
    · subst hmanifest
      obtain rfl : i = j := Option.some.inj ((AList.lookup_insert _).symm.trans hj)
      have := h.now.owned _ _ htemp
      rw [role_temp] at this
      rwa [role_manifest]
    · rw [AList.lookup_insert_ne hmanifest] at hj
      by_cases htmp : name = "MANIFEST.tmp"
      · subst htmp
        rw [AList.lookup_erase] at hj
        cases hj
      · rw [AList.lookup_erase_ne htmp] at hj
        exact h.now.owned name j hj
  · refine (AList.mem_insert _).mpr (.inr (AList.mem_erase.mpr ⟨walFileName_ne.2.1, hwal⟩))
  · obtain rfl : i = j := Option.some.inj ((AList.lookup_insert _).symm.trans hj)
    exact hinode

theorem Creating.syncDir (h : Creating owner d₀ d) : Creating owner d₀ { d with earlier := [] } :=
  ⟨⟨h.now.kept, h.now.known, h.now.owned, h.now.order, h.now.manifest⟩, by simp, h.wal, h.unrelated,
    by simp⟩

/-- A crash keeps the invariant: what it brings back is some stage of creation. -/
theorem Creating.survives (h : Creating owner d₀ d) (hstart : Starting d₀) {d' : Disk String}
    (hcrash : d.Survives d') : Creating owner d₀ d' := by
  have hstage : Stage owner d₀ d d'.entries := by
    rcases hcrash.entries with heq | hmem
    · rw [heq]
      exact h.now
    · exact h.before _ hmem
  -- a synced inode survives as it is
  have hsynced : ∀ i c, d.inodes i = ⟨c, []⟩ → d'.inodes i = ⟨c, []⟩ := by
    intro i c hi
    have hdata := hcrash.data i
    have holder := hcrash.older i
    rw [hi] at hdata
    rcases hinode : d'.inodes i with ⟨data, older⟩
    rw [hinode] at hdata holder
    have hc : data = c := by simpa using hdata
    have ho : older = [] := holder
    rw [hc, ho]
  refine ⟨⟨hstage.kept, hstage.known, fun name i hi => ?_, hstage.order, fun i hi => ?_⟩, ?_,
    fun i hi hfresh => ?_, fun i hi hfresh => ?_, ?_⟩
  · rw [hcrash.fresh]
    exact hstage.owned name i hi
  · exact hsynced i _ (hstage.manifest i hi)
  · rw [hcrash.earlier]
    simp
  · rw [hcrash.fresh] at hfresh
    obtain ⟨hdata, holder⟩ := h.wal i hi hfresh
    refine ⟨?_, by simp [hcrash.older i]⟩
    rcases hcrash.data i with heq | hmem
    · rw [heq, hdata]
    · exact holder _ hmem
  · rw [hcrash.fresh] at hfresh
    have hsame := h.unrelated i hi hfresh
    have hold := hstart.synced i
    rw [hsynced i (d₀.inodes i).data (by rw [hsame, ← hold])]
    rw [← hold]
  · rw [hcrash.earlier]
    simp

/-! ## Looking at the directory -/

section
variable {faulty : Bool}

/-- A name that creation may leave. -/
def Known (d₀ : Disk String) (name : String) : Prop := name ∈ d₀.entries ∨ role name ≠ .unrelated

/-- The only known name that parses is the one of the initial WAL. -/
theorem Known.parse (hstart : Starting d₀) {name : String} (h : Known d₀ name) :
    name = walFileName 1 ∨ parseNumberedFileName name = none := by
  rcases h with hmem | hrole
  · exact .inr (hstart.unrelated name hmem).2.2.2
  · rcases role_ne_unrelated hrole with rfl | rfl | rfl | rfl
    · exact .inr parse_fixed.1
    · exact .inl rfl
    · exact .inr parse_fixed.2.1
    · exact .inr parse_fixed.2.2

/-- Opening a file of the database for writing keeps the invariant. -/
theorem Inv.openWrite (hinv : Inv d₀ d) {name : String} {append : Bool}
    (hrole : role name ≠ .unrelated) (hname : name ≠ "MANIFEST")
    (horder : name = "MANIFEST.tmp" → walFileName 1 ∈ d.entries)
    (hnone : append = false → "MANIFEST" ∉ d.entries) :
    Inv d₀ (d.openWrite name append).2 := by
  obtain ⟨owner, h⟩ := id hinv
  unfold Disk.openWrite
  rcases hlookup : d.entries.lookup name with _ | i
  · exact ⟨_, h.create (AList.lookup_eq_none.mp hlookup) hrole hname horder⟩
  · have howner := (h.now.owned name i hlookup).1
    rcases append with _ | _
    · refine ⟨owner, h.modify (by rwa [howner]) (fun _ hdata holder => ?_) fun _ => hnone rfl⟩
      simp only [Disk.cut, List.take_zero, true_and]
      intro c hc
      rcases List.mem_cons.mp hc with rfl | hc
      · exact hdata
      · exact holder c hc
    · exact hinv

/-- The only obsolete name that creation may leave is `MANIFEST.tmp`. -/
theorem Known.obsolete (hstart : Starting d₀) {name : String} (h : Known d₀ name)
    (hobsolete : obsolete initialManifest name) : name = "MANIFEST.tmp" := by
  unfold Creation.obsolete at hobsolete
  rcases h.parse hstart with rfl | hnone
  · rw [parse_wal] at hobsolete
    simp [initialManifest] at hobsolete
  · rw [hnone] at hobsolete
    exact of_decide_eq_true hobsolete

variable [EntrySize]

end

/-! ## Every run -/

section
variable [EntrySize] (parse : Bytes → Option ManifestMessage)

instance : Inhabited Failure := ⟨⟨.ioError "", rfl⟩⟩

end

end Creation

end TinyLsm
