import TinyLsm.Db.Recovery

/-!
# POSIX files

The loops of `io/file.cpp` around `write` and `pread`. A system call may be interrupted, may fail, and
may move fewer bytes than it was asked to; the answers are a list, and a call of the program that runs
out of them has not returned yet.
-/

namespace TinyLsm

/-- The error number of an interrupted call. -/
def kEintr : ℕ := 4

/-- The error number of an input or output error. -/
def kEio : ℕ := 5

/-- What a system call answers: a count, or an error number. -/
inductive CallAnswer where
  | done (count : ℕ)
  | failed (errno : ℕ)
deriving DecidableEq, Repr

namespace CallAnswer

/-- The call was interrupted. -/
def interrupted (a : CallAnswer) : Bool := a = .failed kEintr

/-- How many of the calls were not interrupted. -/
def finished (answers : List CallAnswer) : ℕ := answers.countP fun a => !a.interrupted

theorem finished_interrupted (answers : List CallAnswer) :
    finished (.failed kEintr :: answers) = finished answers := rfl

theorem finished_cons {a : CallAnswer} (ha : a ≠ .failed kEintr) (answers : List CallAnswer) :
    finished (a :: answers) = finished answers + 1 :=
  List.countP_cons_of_pos (by simp [interrupted, ha])

end CallAnswer

namespace Posix

section
variable (message : ℕ → String) (path : String)

/-- `Error`. -/
def error (op : String) (errno : ℕ) : Status := .ioError (op ++ " " ++ path ++ ": " ++ message errno)

@[simp] theorem ok_error (op : String) (errno : ℕ) : (error message path op errno).ok = false := rfl

/-! ## Append -/

/-- The loop of `PosixWritableFile::Append` behind `done` bytes; the file ends with them. A call writes
at most the bytes that it gets. -/
def appendLoop (data : Bytes) (file : Bytes) (done : ℕ) (answers : List CallAnswer) :
    Option (Bytes × Status) :=
  if data.length ≤ done then some (file, .okay)
  else
    match answers with
    | [] => none
    | .done 0 :: _ => some (file, error message path "write" kEio)
    | .done (count + 1) :: answers =>
      let n := min (count + 1) (data.length - done)
      appendLoop data (file ++ (data.drop done).take n) (done + n) answers
    | .failed errno :: answers =>
      if errno = kEintr then appendLoop data file done answers
      else some (file, error message path "write" errno)

/-- `PosixWritableFile::Append`. -/
def append (data file : Bytes) (answers : List CallAnswer) : Option (Bytes × Status) :=
  appendLoop message path data file 0 answers

variable {message path}

theorem appendLoop_spec {data file file' : Bytes} {done : ℕ} {answers : List CallAnswer}
    {status : Status} (hdone : done ≤ data.length)
    (hr : appendLoop message path data file done answers = some (file', status)) :
    (status = .okay ∧ file' = file ++ data.drop done) ∨
      ∃ errno n, errno ≠ kEintr ∧ status = error message path "write" errno ∧
        done + n < data.length ∧ file' = file ++ (data.drop done).take n := by
  induction answers generalizing file done with
  | nil =>
    unfold appendLoop at hr
    split at hr
    · cases hr
      exact .inl ⟨rfl, by rw [List.drop_of_length_le ‹_›, List.append_nil]⟩
    · cases hr
  | cons a answers ih =>
    unfold appendLoop at hr
    split at hr
    · cases hr
      exact .inl ⟨rfl, by rw [List.drop_of_length_le ‹_›, List.append_nil]⟩
    rename_i hmore
    have hstop : ∀ errno, errno ≠ kEintr →
        some (file, error message path "write" errno) = some (file', status) →
        ∃ errno n, errno ≠ kEintr ∧ status = error message path "write" errno ∧
          done + n < data.length ∧ file' = file ++ (data.drop done).take n := by
      intro errno hne heq
      cases heq
      exact ⟨errno, 0, hne, rfl, by omega, by simp⟩
    split at hr
    · rename_i hnil
      cases hnil
    · exact .inr (hstop kEio (by decide) hr)
    · rename_i count answers' heq
      obtain ⟨rfl, rfl⟩ := List.cons.inj heq
      set n := min (count + 1) (data.length - done) with hn
      rcases ih (by omega) hr with ⟨hok, rfl⟩ | ⟨errno, m, hne, hfail, hlt, rfl⟩
      · refine .inl ⟨hok, ?_⟩
        rw [List.append_assoc, ← List.drop_drop, List.take_append_drop]
      · refine .inr ⟨errno, n + m, hne, hfail, by omega, ?_⟩
        rw [List.append_assoc, ← List.drop_drop, ← List.take_add]
    · rename_i errno answers' heq
      obtain ⟨rfl, rfl⟩ := List.cons.inj heq
      split at hr
      · exact ih hdone hr
      · exact .inr (hstop errno ‹_› hr)

/-- The loop ends when enough of its calls are not interrupted. -/
theorem isSome_appendLoop (data file : Bytes) (done : ℕ) (answers : List CallAnswer)
    (h : data.length - done ≤ CallAnswer.finished answers) :
    (appendLoop message path data file done answers).isSome := by
  induction answers generalizing file done with
  | nil =>
    have hle : data.length - done ≤ 0 := h
    unfold appendLoop
    rw [if_pos (by omega)]
    rfl
  | cons a answers ih =>
    unfold appendLoop
    split
    · rfl
    cases a with
    | done count =>
      rw [CallAnswer.finished_cons (by simp)] at h
      cases count with
      | zero => rfl
      | succ count => exact ih _ _ (by omega)
    | failed errno =>
      dsimp only
      split
      · rename_i heq
        rw [heq, CallAnswer.finished_interrupted] at h
        exact ih _ _ h
      · rfl

/-- `Append` puts all of the data at the end of the file or fails behind a proper part of it. -/
theorem append_spec {data file file' : Bytes} {answers : List CallAnswer} {status : Status}
    (hr : append message path data file answers = some (file', status)) :
    (status = .okay ∧ file' = file ++ data) ∨
      ∃ errno n, errno ≠ kEintr ∧ status = error message path "write" errno ∧ n < data.length ∧
        file' = file ++ data.take n := by
  rcases appendLoop_spec (Nat.zero_le _) hr with hok | ⟨errno, n, hne, hfail, hlt, rfl⟩
  · exact .inl hok
  · exact .inr ⟨errno, n, hne, hfail, by omega, rfl⟩

/-- All of the data may be written at once. -/
theorem exists_append_ok (data file : Bytes) :
    ∃ answers, append message path data file answers = some (file ++ data, .okay) := by
  refine ⟨[.done data.length], ?_⟩
  cases data with
  | nil => simp [append, appendLoop]
  | cons b data => simp [append, appendLoop]

/-- Every proper part may be left behind, with every error. -/
theorem exists_append_failed {data file : Bytes} {n errno : ℕ} (hn : n < data.length)
    (herrno : errno ≠ kEintr) :
    ∃ answers, append message path data file answers =
      some (file ++ data.take n, error message path "write" errno) := by
  have hlast : ∀ file : Bytes, appendLoop message path data file n [.failed errno] =
      some (file, error message path "write" errno) := by
    intro file
    rw [appendLoop, if_neg (by omega), if_neg herrno]
  -- one call writes the part, the next one fails
  cases n with
  | zero => exact ⟨[.failed errno], by rw [append, hlast, List.take_zero, List.append_nil]⟩
  | succ n =>
    refine ⟨[.done (n + 1), .failed errno], ?_⟩
    rw [append, appendLoop, if_neg (by omega)]
    simp only [Nat.sub_zero, Nat.zero_add, min_eq_left hn.le, List.drop_zero, hlast]

/-- The outcomes of `AppendBatch` on a POSIX file are those of the handle with a fault, which leaves a
proper part of the frame, and it returns when enough of its calls are not interrupted. -/
theorem append_iff_appendBatch {o : Options} {h : Handle} {entries : List InternalEntry}
    {bytes : Bytes} {f : File} (hencode : encodeWalBatch entries o.limits = .ok bytes)
    (hf : h.dir.files (.wal h.manifest.activeWalNumber) = some f) :
    (∀ answers, bytes.length ≤ CallAnswer.finished answers →
        (append message path bytes f.data answers).isSome) ∧
      ∀ file status, (∃ answers, append message path bytes f.data answers = some (file, status)) ↔
        ∃ fault, (∀ x : Failure × ℕ, fault = some x → x.2 < bytes.length ∧
            ∃ errno, errno ≠ kEintr ∧ x.1.1 = error message path "write" errno) ∧
          (h.appendBatch o entries fault).2 = status ∧
          (h.appendBatch o entries fault).1.dir.files (.wal h.manifest.activeWalNumber) =
            some { f with data := file } := by
  refine ⟨fun answers hle => isSome_appendLoop _ _ _ _ hle, fun file status => ⟨?_, ?_⟩⟩
  -- each list of answers is no fault, or the fault at the number of bytes written
  · rintro ⟨answers, hr⟩
    rcases append_spec hr with ⟨rfl, rfl⟩ | ⟨errno, n, hne, rfl, hlt, rfl⟩
    · refine ⟨none, by simp, ?_⟩
      simp [Handle.appendBatch, hencode, DirOp.apply, hf]
    · refine ⟨some (⟨error message path "write" errno, rfl⟩, n), ?_, ?_⟩
      · rintro _ ⟨⟩
        exact ⟨hlt, errno, hne, rfl⟩
      · simp [Handle.appendBatch, hencode, DirOp.apply, hf]
  -- and for each fault there are answers
  · rintro ⟨fault, hfault, hstatus, hfile⟩
    cases fault with
    | none =>
      simp only [Handle.appendBatch, hencode, Handle.perform_dir, DirOp.apply, hf,
        Function.update_self, Option.map_some, Option.some.injEq, File.mk.injEq] at hstatus hfile
      rw [← hstatus, ← hfile.1]
      exact exists_append_ok _ _
    | some x =>
      obtain ⟨failure, n⟩ := x
      obtain ⟨hlt, errno, hne, hstatus'⟩ := hfault _ rfl
      simp only [Handle.appendBatch, hencode, Handle.perform_dir, DirOp.apply, hf,
        Function.update_self, Option.map_some, Option.some.injEq, File.mk.injEq] at hstatus hfile
      rw [← hstatus, ← hfile.1, hstatus']
      exact exists_append_failed hlt hne

/-- Three bytes are written, a call is interrupted, and the device is full. -/
theorem append_iff_appendBatch_torn :
    ∃ (bytes : Bytes) (fault : Option (Failure × ℕ)),
      encodeWalBatch [⟨[1], 1, .value, [2]⟩] ({} : Options).limits = .ok bytes ∧
      ((Handle.blank ⟨fun _ => some ⟨[], 0⟩, none⟩ initialManifest []).appendBatch {}
        [⟨[1], 1, .value, [2]⟩] fault).2 =
          .ioError "write 000001.wal: No space left on device" ∧
      ((Handle.blank ⟨fun _ => some ⟨[], 0⟩, none⟩ initialManifest []).appendBatch {}
        [⟨[1], 1, .value, [2]⟩] fault).1.dir.files (.wal 1) = some ⟨bytes.take 3, 0⟩ := by
  have hlength : ((encodeWalBatch [⟨[1], 1, .value, [2]⟩] ({} : Options).limits).toOption.map
      fun bytes => decide (3 < bytes.length)) = some true := by
    decide +kernel
  cases hencode : encodeWalBatch [⟨[1], 1, .value, [2]⟩] ({} : Options).limits with
  | error status =>
    rw [hencode] at hlength
    cases hlength
  | ok bytes =>
    rw [hencode] at hlength
    have hlong : 3 < bytes.length := of_decide_eq_true (Option.some.inj hlength)
    have happend : append (fun _ => "No space left on device") "000001.wal" bytes []
        [.done 3, .failed kEintr, .failed 28] =
          some (bytes.take 3, .ioError "write 000001.wal: No space left on device") := by
      have hne : bytes ≠ [] := List.ne_nil_of_length_pos (by omega)
      simp [append, appendLoop, kEintr, hlong.not_ge, min_eq_left hlong.le, error, hne]
    obtain ⟨fault, -, hstatus, hfile⟩ := ((append_iff_appendBatch (f := ⟨[], 0⟩)
      (h := Handle.blank ⟨fun _ => some ⟨[], 0⟩, none⟩ initialManifest []) hencode rfl).2 _ _).mp
        ⟨_, happend⟩
    exact ⟨bytes, fault, rfl, hstatus, hfile⟩

/-! ## ReadExactly -/

variable (message path) in
/-- `PosixRandomAccessFile::ReadAt`. A call hands out a byte at least, except at the end of the file. -/
def readAt (file : Bytes) (offset size : ℕ) : List CallAnswer → Option (Result Bytes × List CallAnswer)
  | [] => none
  | .done count :: answers =>
    some (.ok ((file.drop offset).take (min size (count + 1))), answers)
  | .failed errno :: answers =>
    if errno = kEintr then readAt file offset size answers
    else some (.error (error message path "pread" errno), answers)

variable (message path) in
/-- The loop of `ReadExactly` behind the bytes in `buffer`. -/
def readExactlyLoop (file : Bytes) (offset size : ℕ) :
    ℕ → Bytes → List CallAnswer → Option (Result Bytes)
  | 0, _, _ => none
  | fuel + 1, buffer, answers =>
    if size ≤ buffer.length then some (.ok buffer)
    else
      match readAt message path file (offset + buffer.length) (size - buffer.length) answers with
      | none => none
      | some (.error status, _) => some (.error status)
      | some (.ok bytes, answers) =>
        if bytes.length = 0 then some (.error (.corruption "unexpected end of file"))
        else readExactlyLoop file offset size fuel (buffer ++ bytes) answers

variable (message path) in
/-- `ReadExactly`: every read but the last hands out at least one byte. -/
def readExactly (file : Bytes) (offset size : ℕ) (answers : List CallAnswer) : Option (Result Bytes) :=
  readExactlyLoop message path file offset size (size + 1) [] answers

theorem readAt_spec {file : Bytes} {offset size : ℕ} {answers rest : List CallAnswer}
    {r : Result Bytes} (hr : readAt message path file offset size answers = some (r, rest)) :
    CallAnswer.finished answers = CallAnswer.finished rest + 1 ∧
      rest ⊆ answers ∧ ((∃ count, r = .ok ((file.drop offset).take (min size (count + 1)))) ∨
        ∃ errno, .failed errno ∈ answers ∧ errno ≠ kEintr ∧
          r = .error (error message path "pread" errno)) := by
  induction answers with
  | nil => cases hr
  | cons a answers ih =>
    cases a with
    | done count =>
      cases hr
      exact ⟨CallAnswer.finished_cons (by simp) _, List.subset_cons_self _ _, .inl ⟨count, rfl⟩⟩
    | failed errno =>
      simp only [readAt] at hr
      split at hr
      -- an interrupted call is made again, and is not among those that finish
      · rename_i heq
        rw [heq, CallAnswer.finished_interrupted]
        obtain ⟨hfinished, hsubset, hresult⟩ := ih hr
        refine ⟨hfinished, List.Subset.trans hsubset (List.subset_cons_self _ _),
          hresult.imp_right ?_⟩
        rintro ⟨errno, hmem, hrest⟩
        exact ⟨errno, List.mem_cons_of_mem _ hmem, hrest⟩
      · rename_i hne
        cases hr
        exact ⟨CallAnswer.finished_cons (by simpa using hne) _, List.subset_cons_self _ _,
          .inr ⟨errno, List.mem_cons_self, hne, rfl⟩⟩

variable (message path) in
theorem isSome_readAt (file : Bytes) (offset size : ℕ) {answers : List CallAnswer}
    (h : 0 < CallAnswer.finished answers) :
    (readAt message path file offset size answers).isSome := by
  induction answers with
  | nil => cases h
  | cons a answers ih =>
    cases a with
    | done => rfl
    | failed errno =>
      simp only [readAt]
      split
      · rename_i heq
        rw [heq, CallAnswer.finished_interrupted] at h
        exact ih h
      · rfl

/-- What the loop has read are the first bytes of the section. -/
theorem readExactlyLoop_spec {file : Bytes} {offset size fuel : ℕ} {buffer : Bytes}
    {answers : List CallAnswer} {r : Result Bytes} (hsize : 0 < size) (hle : buffer.length ≤ size)
    (hbuffer : buffer = (file.drop offset).take buffer.length)
    (hr : readExactlyLoop message path file offset size fuel buffer answers = some r) :
    r = TinyLsm.readExactly file offset size ∨
      ∃ errno, .failed errno ∈ answers ∧ errno ≠ kEintr ∧
        r = .error (error message path "pread" errno) := by
  induction fuel generalizing buffer answers with
  | zero => cases hr
  | succ fuel ih =>
    simp only [readExactlyLoop] at hr
    split at hr
    · cases hr
      obtain hall : buffer.length = size := by omega
      have hlength := congrArg List.length hbuffer
      simp only [List.length_take, List.length_drop] at hlength
      rw [TinyLsm.readExactly, if_neg hsize.ne', if_pos (by omega), ← hall]
      exact .inl (congrArg _ hbuffer)
    split at hr
    · cases hr
    · rename_i status answers' hread
      cases hr
      rcases (readAt_spec hread).2.2 with ⟨count, heq⟩ | herror
      · cases heq
      · exact .inr herror
    · rename_i bytes answers' hread
      obtain ⟨-, hsubset, ⟨count, heq⟩ | ⟨errno, -, -, heq⟩⟩ := readAt_spec hread
      swap
      · cases heq
      cases heq
      set k := min (size - buffer.length) (count + 1) with hk
      have hlength : ((file.drop (offset + buffer.length)).take k).length =
          min k (file.length - (offset + buffer.length)) := by
        rw [List.length_take, List.length_drop]
      split at hr
      · rename_i hnone
        cases hr
        rw [TinyLsm.readExactly, if_neg hsize.ne', if_neg (by omega)]
        exact .inl rfl
      · have hrest := ih (by rw [List.length_append]; omega) ?_ hr
        · refine hrest.imp_right ?_
          rintro ⟨errno, hmem, hrest⟩
          exact ⟨errno, hsubset hmem, hrest⟩
        · rw [List.length_append, List.take_add, ← hbuffer, List.drop_drop]
          congr 1
          rw [List.length_take, List.take_eq_take_iff]
          omega

/-- `ReadExactly` returns the whole section or an error, however short the reads are. -/
theorem readExactly_spec {file : Bytes} {offset size : ℕ} {answers : List CallAnswer}
    {r : Result Bytes} (hr : readExactly message path file offset size answers = some r) :
    r = TinyLsm.readExactly file offset size ∨
      ∃ errno, .failed errno ∈ answers ∧ errno ≠ kEintr ∧
        r = .error (error message path "pread" errno) := by
  by_cases hsize : size = 0
  · subst hsize
    cases hr
    exact .inl rfl
  · exact readExactlyLoop_spec (Nat.pos_of_ne_zero hsize) (Nat.zero_le _) rfl hr

theorem isSome_readExactlyLoop (file : Bytes) (offset size : ℕ) {fuel : ℕ} {buffer : Bytes}
    {answers : List CallAnswer} (hfuel : size - buffer.length < fuel)
    (h : size - buffer.length ≤ CallAnswer.finished answers) :
    (readExactlyLoop message path file offset size fuel buffer answers).isSome := by
  induction fuel generalizing buffer answers with
  | zero => exact absurd hfuel (Nat.not_lt_zero _)
  | succ fuel ih =>
    simp only [readExactlyLoop]
    split
    · rfl
    rename_i hmore
    have hcall : 0 < CallAnswer.finished answers := by omega
    obtain ⟨⟨r, rest⟩, hread⟩ := Option.isSome_iff_exists.mp
      (isSome_readAt message path file (offset + buffer.length) (size - buffer.length) hcall)
    obtain ⟨hfinished, -⟩ := readAt_spec hread
    rw [hread]
    cases r with
    | error status => rfl
    | ok bytes =>
      dsimp only
      split
      · rfl
      · refine ih ?_ ?_
        · rw [List.length_append]
          omega
        · rw [List.length_append]
          omega

/-- `ReadExactly` returns when enough of its calls are not interrupted: the whole section, or an error
of a call that failed. -/
theorem readExactly_exact (file : Bytes) (offset size : ℕ) (answers : List CallAnswer) :
    (size ≤ CallAnswer.finished answers →
        (readExactly message path file offset size answers).isSome) ∧
      ∀ r, readExactly message path file offset size answers = some r →
        r = TinyLsm.readExactly file offset size ∨
          ∃ errno, .failed errno ∈ answers ∧ errno ≠ kEintr ∧
            r = .error (error message path "pread" errno) :=
  ⟨fun hle => isSome_readExactlyLoop file offset size (Nat.lt_succ_self _) hle,
    fun _ hr => readExactly_spec hr⟩

end

end Posix

end TinyLsm
