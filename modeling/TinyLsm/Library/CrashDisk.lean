import TinyLsm.Library.TransitionSystem
import Mathlib.Data.List.AList

/-!
# Programs on a directory that may crash

A directory of names and inodes, the requests a program makes of it, and what a failed request or a
crash may leave. A crash brings back the entries behind some prefix of the changes that were not
synced; a file keeps its synced contents, or one of the contents it had since.

`Program.Ensures` is a weakest precondition with a crash condition: the invariant holds at every
request, so that a crash at any point starts from it.
-/

namespace CrashDisk

/-- A file: what is read from it, and what a crash may leave of it instead. -/
structure Inode where
  data : List UInt8
  older : List (List UInt8)
deriving DecidableEq, Repr

/-- The entries of a directory: names with the numbers of their inodes. -/
abbrev Entries (N : Type) := AList fun _ : N => ℕ

/-- A directory and its files. -/
structure Disk (N : Type) where
  entries : Entries N
  /-- The entries that a crash may bring back. -/
  earlier : List (Entries N)
  inodes : ℕ → Inode
  /-- The number of the next inode. -/
  fresh : ℕ

/-- What a program asks of the file system. -/
inductive Request (N : Type) where
  | dirExists
  | createDir
  | fileExists (name : N)
  | list
  /-- Create a file if it is missing, and lock it. -/
  | lock (name : N)
  | openRead (name : N)
  | size (file : ℕ)
  | read (file offset length : ℕ)
  /-- All that a file holds. -/
  | readAll (file : ℕ)
  | openWrite (name : N) (append : Bool)
  | append (file : ℕ) (bytes : List UInt8)
  | sync (file : ℕ)
  | close (file : ℕ)
  | rename (source target : N)
  | remove (name : N)
  | truncate (name : N) (size : ℕ)
  | syncDir
deriving DecidableEq, Repr

/-- What a request returns. -/
abbrev Request.Answer {N : Type} : Request N → Type
  | dirExists | fileExists _ => Bool
  | list => List N
  | openRead _ | openWrite _ _ | size _ => ℕ
  | read _ _ _ | readAll _ => List UInt8
  | _ => Unit

namespace Disk

variable {N : Type}

/-- The inode of a file changes. -/
def modify (d : Disk N) (i : ℕ) (f : Inode → Inode) : Disk N :=
  { d with inodes := Function.update d.inodes i (f (d.inodes i)) }

@[simp] theorem modify_inodes_self (d : Disk N) (i : ℕ) (f : Inode → Inode) :
    (d.modify i f).inodes i = f (d.inodes i) := Function.update_self _ _ _

theorem modify_inodes_ne (d : Disk N) {i j : ℕ} (h : j ≠ i) (f : Inode → Inode) :
    (d.modify i f).inodes j = d.inodes j := Function.update_of_ne h _ _

/-- The entries change; a crash may bring the old ones back. -/
def setEntries (d : Disk N) (e : Entries N) : Disk N :=
  { d with entries := e, earlier := d.entries :: d.earlier }

/-- Bytes are appended: a crash may leave the file as it was, or with some of them. -/
def write (bytes : List UInt8) (n : Inode) : Inode :=
  ⟨n.data ++ bytes,
    (List.range bytes.length).map (fun k => n.data ++ bytes.take k) ++ n.older⟩

/-- Everything written is synced. -/
def settle (n : Inode) : Inode := ⟨n.data, []⟩

/-- A file is cut off. -/
def cut (size : ℕ) (n : Inode) : Inode := ⟨n.data.take size, n.data :: n.older⟩

variable [DecidableEq N]

/-- A new file without contents. -/
def create (d : Disk N) (name : N) : Disk N :=
  { (d.setEntries (d.entries.insert name d.fresh)) with
    inodes := Function.update d.inodes d.fresh ⟨[], []⟩, fresh := d.fresh + 1 }

/-- A file that is created if it is missing, and its inode. -/
def touch (d : Disk N) (name : N) : ℕ × Disk N :=
  match d.entries.lookup name with
  | some i => (i, d)
  | none => (d.fresh, d.create name)

/-- A file opened for writing: emptied unless it is opened for appending. -/
def openWrite (d : Disk N) (name : N) (append : Bool) : ℕ × Disk N :=
  match d.entries.lookup name with
  | some i => (i, if append then d else d.modify i (cut 0))
  | none => (d.fresh, d.create name)

/-- The entry of `source` becomes the one of `target`. -/
def rename (d : Disk N) (source target : N) (i : ℕ) : Disk N :=
  d.setEntries ((d.entries.erase source).insert target i)

/-- What a request answers, and the directory behind it, when nothing goes wrong. -/
def Serves {E : Type} (d : Disk N) : (q : Request N) → Except E q.Answer → Disk N → Prop
  | .dirExists, a, d' => a = .ok true ∧ d' = d
  | .createDir, a, d' => a = .ok () ∧ d' = d
  | .fileExists name, a, d' => a = .ok (d.entries.lookup name).isSome ∧ d' = d
  | .list, a, d' => (∃ names, names.Perm d.entries.keys ∧ a = .ok names) ∧ d' = d
  | .lock name, a, d' => a = .ok () ∧ d' = (d.touch name).2
  | .openRead name, a, d' =>
    (∀ i, d.entries.lookup name = some i → a = .ok i) ∧
      (d.entries.lookup name = none → ∃ e, a = .error e) ∧ d' = d
  | .size i, a, d' => a = .ok (d.inodes i).data.length ∧ d' = d
  | .read i offset length, a, d' =>
    (offset + length ≤ (d.inodes i).data.length →
      a = .ok (((d.inodes i).data.drop offset).take length)) ∧
      ((d.inodes i).data.length < offset + length → ∃ e, a = .error e) ∧ d' = d
  | .readAll i, a, d' => a = .ok (d.inodes i).data ∧ d' = d
  | .openWrite name append, a, d' =>
    a = .ok (d.openWrite name append).1 ∧ d' = (d.openWrite name append).2
  | .append i bytes, a, d' => a = .ok () ∧ d' = d.modify i (write bytes)
  | .sync i, a, d' => a = .ok () ∧ d' = d.modify i settle
  | .close _, a, d' => a = .ok () ∧ d' = d
  | .rename source target, a, d' =>
    (∀ i, d.entries.lookup source = some i → a = .ok () ∧ d' = d.rename source target i) ∧
      (d.entries.lookup source = none → (∃ e, a = .error e) ∧ d' = d)
  | .remove name, a, d' =>
    a = .ok () ∧ d' = if name ∈ d.entries then d.setEntries (d.entries.erase name) else d
  | .truncate name size, a, d' =>
    (∀ i, d.entries.lookup name = some i → a = .ok () ∧ d' = d.modify i (cut size)) ∧
      (d.entries.lookup name = none → (∃ e, a = .error e) ∧ d' = d)
  | .syncDir, a, d' => a = .ok () ∧ d' = { d with earlier := [] }

/-- What a failed request may leave: nothing, all or a part of its effect. A failed rename has no
effect. -/
def Fails (d : Disk N) : Request N → Disk N → Prop
  | .lock name, d' => d' = d ∨ d' = (d.touch name).2
  | .openWrite name append, d' => d' = d ∨ d' = (d.openWrite name append).2
  | .append i bytes, d' => ∃ k, d' = d.modify i (write (bytes.take k))
  | .sync i, d' => d' = d ∨ d' = d.modify i settle
  | .remove name, d' => d' = d ∨ d' = d.setEntries (d.entries.erase name)
  | .truncate name size, d' =>
    d' = d ∨ ∃ i, d.entries.lookup name = some i ∧ d' = d.modify i (cut size)
  | .syncDir, d' => d' = d ∨ d' = { d with earlier := [] }
  | _, d' => d' = d

/-- What a request may do, failures included when `faulty`. -/
def Acts {E : Type} (faulty : Bool) (d : Disk N) (q : Request N) (a : Except E q.Answer)
    (d' : Disk N) : Prop :=
  d.Serves q a d' ∨ faulty = true ∧ (∃ e, a = .error e) ∧ d.Fails q d'

/-- What a crash may leave. -/
structure Survives (d d' : Disk N) : Prop where
  entries : d'.entries = d.entries ∨ d'.entries ∈ d.earlier
  earlier : d'.earlier = []
  data : ∀ i, (d'.inodes i).data = (d.inodes i).data ∨ (d'.inodes i).data ∈ (d.inodes i).older
  older : ∀ i, (d'.inodes i).older = []
  fresh : d'.fresh = d.fresh

end Disk

/-! ## Programs -/

/-- A program that makes requests; a failed one answers with an error in `E`. -/
inductive Program (N E α : Type) where
  | done (a : α)
  | ask (q : Request N) (k : Except E q.Answer → Program N E α)

namespace Program

variable {N E α β : Type}

/-- One program behind another. -/
def bind : Program N E α → (α → Program N E β) → Program N E β
  | done a, f => f a
  | ask q k, f => ask q fun a => bind (k a) f

instance : Monad (Program N E) where
  pure := done
  bind := bind

/-- A single request. -/
def request (q : Request N) : Program N E (Except E q.Answer) := ask q done

section
variable [DecidableEq N]

/-- Whatever the requests do, the invariant holds at every one of them and at the end, and the
result satisfies `post`. -/
def Ensures (faulty : Bool) (inv : Disk N → Prop) :
    Program N E α → (α → Disk N → Prop) → Disk N → Prop
  | done a, post, d => inv d ∧ post a d
  | ask q k, post, d => inv d ∧
      ∀ answer d', d.Acts faulty q answer d' → Ensures faulty inv (k answer) post d'

variable {faulty : Bool} {inv : Disk N → Prop} {d : Disk N}

theorem Ensures.now {p : Program N E α} {post : α → Disk N → Prop}
    (h : p.Ensures faulty inv post d) : inv d := by
  rcases p with a | ⟨q, k⟩
  · exact h.1
  · exact h.1

theorem Ensures.mono {p : Program N E α} {post post' : α → Disk N → Prop}
    (h : p.Ensures faulty inv post d)
    (hpost : ∀ a d', inv d' → post a d' → post' a d') : p.Ensures faulty inv post' d := by
  induction p generalizing d with
  | done a => exact ⟨h.1, hpost a d h.1 h.2⟩
  | ask q k ih => exact ⟨h.1, fun answer d' hacts => ih answer (h.2 answer d' hacts)⟩

theorem Ensures.bind {p : Program N E α} {f : α → Program N E β} {post : β → Disk N → Prop}
    (h : p.Ensures faulty inv (fun a d' => (f a).Ensures faulty inv post d') d) :
    (p >>= f).Ensures faulty inv post d := by
  induction p generalizing d with
  | done a => exact h.2
  | ask q k ih => exact ⟨h.1, fun answer d' hacts => ih answer (h.2 answer d' hacts)⟩

/-- The rule of a request whose answer the program looks at. -/
theorem Ensures.request {q : Request N} {post : Except E q.Answer → Disk N → Prop} (hinv : inv d)
    (h : ∀ answer d', d.Acts faulty q answer d' → inv d' ∧ post answer d') :
    (request q : Program N E _).Ensures faulty inv post d :=
  ⟨hinv, h⟩

end

end Program

/-! ## Programs that give up -/

section
variable {N E S α β : Type} [DecidableEq N] {faulty : Bool} {inv : Disk N → Prop} {d : Disk N}

/-- The program ensures `post` of its value; it gives up only behind a failed request. -/
def Succeeds (faulty : Bool) (inv : Disk N → Prop) (p : ExceptT S (Program N E) α)
    (post : α → Disk N → Prop) (d : Disk N) : Prop :=
  p.run.Ensures faulty inv
    (fun r d' => (∃ a, r = .ok a ∧ post a d') ∨ faulty = true ∧ ∃ s, r = .error s) d

theorem Succeeds.pure {a : α} {post : α → Disk N → Prop} (hinv : inv d) (h : post a d) :
    Succeeds faulty inv (pure a : ExceptT S (Program N E) α) post d :=
  ⟨hinv, .inl ⟨a, rfl, h⟩⟩

theorem Succeeds.mono {p : ExceptT S (Program N E) α} {post post' : α → Disk N → Prop}
    (h : Succeeds faulty inv p post d) (hpost : ∀ a d', inv d' → post a d' → post' a d') :
    Succeeds faulty inv p post' d := by
  refine Program.Ensures.mono h fun r d' hinv hr => ?_
  rcases hr with ⟨a, rfl, ha⟩ | herr
  · exact .inl ⟨a, rfl, hpost a d' hinv ha⟩
  · exact .inr herr

theorem Succeeds.bind {p : ExceptT S (Program N E) α} {f : α → ExceptT S (Program N E) β}
    {post : β → Disk N → Prop}
    (h : Succeeds faulty inv p (fun a d' => Succeeds faulty inv (f a) post d') d) :
    Succeeds faulty inv (p >>= f) post d := by
  refine Program.Ensures.bind (Program.Ensures.mono h fun r d' hinv hr => ?_)
  rcases hr with ⟨a, rfl, ha⟩ | ⟨hfaulty, s, rfl⟩
  · exact ha
  · exact ⟨hinv, .inr ⟨hfaulty, s, rfl⟩⟩

/-- A value that is already there, or an error. -/
def ofResult (r : Except S α) : ExceptT S (Program N E) α := ExceptT.mk (Program.done r)

theorem Succeeds.ofResult {r : Except S α} {post : α → Disk N → Prop} (hinv : inv d)
    (hok : ∀ a, r = .ok a → post a d) (herror : ∀ s, r = .error s → faulty = true) :
    Succeeds faulty inv (ofResult r : ExceptT S (Program N E) α) post d := by
  refine ⟨hinv, ?_⟩
  rcases r with s | a
  · exact .inr ⟨herror s rfl, s, rfl⟩
  · exact .inl ⟨a, rfl, hok a rfl⟩

theorem Succeeds.lift {p : Program N E α} {post : α → Disk N → Prop}
    (h : p.Ensures faulty inv post d) : Succeeds faulty inv (ExceptT.lift p : ExceptT S _ α) post d :=
  Program.Ensures.bind (Program.Ensures.mono h fun a _ hinv ha => ⟨hinv, .inl ⟨a, rfl, ha⟩⟩)

/-- A request whose failure ends the program with an error made of it. -/
def call (error : E → S) (q : Request N) : ExceptT S (Program N E) q.Answer :=
  ExceptT.mk (Program.ask q fun answer =>
    match answer with
    | .ok a => .done (.ok a)
    | .error e => .done (.error (error e)))

/-- The rule of a request: it answers, and what it leaves when it fails keeps the invariant. -/
theorem Succeeds.call {error : E → S} {q : Request N} {post : q.Answer → Disk N → Prop}
    (hinv : inv d)
    (hserves : ∀ (answer : Except E q.Answer) (d' : Disk N), d.Serves q answer d' →
      inv d' ∧ ∃ a, answer = .ok a ∧ post a d')
    (hfails : ∀ d', d.Fails q d' → inv d') :
    Succeeds faulty inv (CrashDisk.call error q) post d := by
  refine ⟨hinv, fun answer d' hacts => ?_⟩
  rcases hacts with hserved | ⟨hfaulty, ⟨e, rfl⟩, hfailed⟩
  · obtain ⟨hinv', a, rfl, ha⟩ := hserves answer d' hserved
    exact ⟨hinv', .inl ⟨a, rfl, ha⟩⟩
  · exact ⟨hfails d' hfailed, .inr ⟨hfaulty, _, rfl⟩⟩

end

/-! ## Crashes and retries -/

/-- A directory, and the program that runs on it. -/
structure World (N E α : Type) where
  disk : Disk N
  running : Option (Program N E α)

namespace World

variable {N E α : Type} [DecidableEq N]

/-- A program starts, makes a request that may fail, ends, or is cut off: the process is killed, or
the machine crashes. -/
inductive Step (starts : Program N E α → Prop) : World N E α → World N E α → Prop
  | start {d : Disk N} {p : Program N E α} : starts p → Step starts ⟨d, none⟩ ⟨d, some p⟩
  | request {d d' : Disk N} {q : Request N} {k : Except E q.Answer → Program N E α}
      {answer : Except E q.Answer} : d.Acts true q answer d' →
      Step starts ⟨d, some (.ask q k)⟩ ⟨d', some (k answer)⟩
  | finish {d : Disk N} {a : α} : Step starts ⟨d, some (.done a)⟩ ⟨d, none⟩
  | kill {d : Disk N} {running : Option (Program N E α)} : Step starts ⟨d, running⟩ ⟨d, none⟩
  | crash {d d' : Disk N} {running : Option (Program N E α)} : d.Survives d' →
      Step starts ⟨d, running⟩ ⟨d', none⟩

/-- The worlds that programs lead to from a directory. -/
def system (starts : Program N E α → Prop) (d : Disk N) : TransitionSystem (World N E α) where
  init w := w = ⟨d, none⟩
  step := Step starts

end World

end CrashDisk
