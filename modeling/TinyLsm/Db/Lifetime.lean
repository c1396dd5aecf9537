import TinyLsm.Db.FileNumbers
import Mathlib.Data.Option.Basic

/-!
# Lifetimes of a directory

A directory goes through handles that end by `Close`, by a crash of the process or by a power loss at
any file operation. Whatever happens in a lifetime, what it leaves behind is sound.
-/

namespace TinyLsm

/-- What a power loss leaves of a file: the synced bytes, and some of those appended behind them. -/
structure File.Survives (f f' : File) : Prop where
  synced : f.data.take f.synced <+: f'.data
  appended : f'.data <+: f.data
  durable : f'.synced = f'.data.length

/-- What a power loss leaves of a directory; each file survives on its own. -/
structure Directory.Survives (d d' : Directory) : Prop where
  manifest : d'.manifest = d.manifest
  files : ∀ name, Option.Rel File.Survives (d.files name) (d'.files name)

/-- A synced file survives as it is. -/
theorem File.Survives.eq_of_synced {f f' : File} (hf : f.Survives f')
    (hsynced : f.synced = f.data.length) : f' = f := by
  have hdata : f'.data = f.data := by
    refine hf.appended.eq_of_length (le_antisymm hf.appended.length_le ?_)
    simpa [hsynced] using hf.synced.length_le
  cases f
  cases f'
  simp only at hdata
  subst hdata
  simpa using hf.durable.trans hsynced.symm

theorem Directory.Sound.survives {d d' : Directory} (h : d.Sound) (hd : d.Survives d') :
    d'.Sound := by
  refine ⟨fun m hm => h.manifest m (hd.manifest ▸ hm), fun number f' hf' => ?_⟩
  have hrel := hd.files (.sst number)
  rw [hf'] at hrel
  cases hf : d.files (.sst number) with
  | none =>
    rw [hf] at hrel
    cases hrel
  | some f =>
    rw [hf] at hrel
    cases hrel with
    | some hs => exact hs.eq_of_synced (h.tables number f hf).synced ▸ h.tables number f hf

/-- The directories the program leaves behind. -/
inductive Directory.Written [EntrySize] : Directory → Prop
  /-- There is no database yet. -/
  | new {d} (hmanifest : d.manifest = none) (htables : ∀ number, d.files (.sst number) = none) :
      Written d
  /-- A run of a handle stops behind one of its file operations. -/
  | left {d d' o listing sweep h s ops} (hd : Written d)
      (hopen : Handle.open o d listing sweep = .ok h)
      (hrun : (System.system o false).Run (System.started h) s) (hops : ops <+: s.handle.trace)
      (hleft : (ops.foldl DirOp.apply d).Survives d') : Written d'
  /-- `Open` does not return; of the numbered files it may have changed WALs. -/
  | unopened {d d'} (hd : Written d) (hmanifest : d'.manifest = d.manifest)
      (htables : ∀ number, d'.files (.sst number) = d.files (.sst number)) : Written d'

/-- Every directory the program leaves behind is sound. -/
theorem Directory.Written.sound [EntrySize] {d : Directory} (h : d.Written) : d.Sound := by
  induction h with
  | new hmanifest htables =>
    refine ⟨fun m hm => ?_, fun number f hf => ?_⟩
    · rw [hmanifest] at hm
      cases hm
    · rw [htables] at hf
      cases hf
  | @left d d' o listing sweep h s ops hd hopen hrun hops hleft ih =>
    obtain ⟨readers, ha⟩ : ∃ readers, Allocated o d s.handle s.worker readers :=
      hrun.keeps (P := fun s => ∃ readers, Allocated o d s.handle s.worker readers)
        (fun _ _ hstep ⟨_, ha⟩ => ⟨_, Allocated.step hstep ha⟩) ⟨_, Allocated.opened hopen ih⟩
    exact (ha.always.holds ops hops).survives hleft
  | unopened hd hmanifest htables ih =>
    exact ⟨fun m hm => ih.manifest m (hmanifest ▸ hm),
      fun number f hf => ih.tables number f (htables number ▸ hf)⟩

end TinyLsm
