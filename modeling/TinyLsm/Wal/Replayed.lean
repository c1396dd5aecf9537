import TinyLsm.Wal.Damage

/-!
# Logs that replay

The complete records of a log as a relation between what replay starts from and what it ends with.
Logs that replay can be put one behind the other, and `Replay` of such a log and an incomplete record
behind it ends where the log does.
-/

namespace TinyLsm

variable {σ : Type} {apply : σ → List InternalEntry → Result σ} {limits : DecodeLimits}

/-- Replay of complete records takes a sequence and a target to the last sequence and the updated
target. -/
inductive Replayed (apply : σ → List InternalEntry → Result σ) (limits : DecodeLimits) :
    ℕ → σ → Bytes → ℕ → σ → Prop
  | nil {previous target} : Replayed apply limits previous target [] previous target
  | cons {previous target g enc target₁ bytes last target'} (hframe : IsFrame limits g enc)
      (habove : ∀ e ∈ g, previous < e.sequence ∧ e.sequence < 2 ^ 64)
      (happly : apply target g = .ok target₁)
      (hrest : Replayed apply limits (lastSequence g previous) target₁ bytes last target') :
      Replayed apply limits previous target (enc ++ bytes) last target'

theorem IsFrame.ne_nil {g : List InternalEntry} {enc : Bytes} (h : IsFrame limits g enc) : g ≠ [] := by
  obtain ⟨_, _, _, hframe⟩ := h
  exact hframe.ne_nil

theorem IsFrame.length_pos {g : List InternalEntry} {enc : Bytes} (h : IsFrame limits g enc) :
    0 < enc.length := by
  obtain ⟨_, _, _, hframe⟩ := h
  rw [hframe.length_eq]
  omega

/-- The last sequence of a group is that of one of its entries. -/
theorem exists_lastSequence {g : List InternalEntry} (hne : g ≠ []) (previous : ℕ) :
    ∃ e ∈ g, lastSequence g previous = e.sequence := by
  refine ⟨g.getLast hne, List.getLast_mem hne, ?_⟩
  rw [lastSequence, List.getLast?_eq_some_getLast hne]

namespace Replayed

variable {previous last last' : ℕ} {target target' target'' : σ} {bytes bytes' : Bytes}

theorem single {g : List InternalEntry} {enc : Bytes} (hframe : IsFrame limits g enc)
    (habove : ∀ e ∈ g, previous < e.sequence ∧ e.sequence < 2 ^ 64)
    (happly : apply target g = .ok target') :
    Replayed apply limits previous target enc (lastSequence g previous) target' := by
  rw [← List.append_nil enc]
  exact .cons hframe habove happly .nil

theorem of_nil (h : Replayed apply limits previous target [] last target') :
    last = previous ∧ target' = target := by
  generalize hempty : ([] : Bytes) = bytes at h
  cases h with
  | nil => exact ⟨rfl, rfl⟩
  | cons hframe =>
    have hpos := hframe.length_pos
    rw [(List.append_eq_nil_iff.mp hempty.symm).1] at hpos
    exact absurd hpos (Nat.lt_irrefl _)

/-- One log behind another. -/
theorem trans (h : Replayed apply limits previous target bytes last target')
    (h' : Replayed apply limits last target' bytes' last' target'') :
    Replayed apply limits previous target (bytes ++ bytes') last' target'' := by
  induction h with
  | nil => exact h'
  | cons hframe habove happly _ ih =>
    rw [List.append_assoc]
    exact .cons hframe habove happly (ih h')

theorem le_last (h : Replayed apply limits previous target bytes last target') : previous ≤ last := by
  induction h with
  | nil => exact le_rfl
  | cons _ habove _ _ ih => exact (le_lastSequence habove).trans ih

/-- The records are those of a log without a target. -/
theorem exists_groups (h : Replayed apply limits previous target bytes last target') :
    ∃ gs encs, List.Forall₂ (IsFrame limits) gs encs ∧ bytes = encs.flatten ∧
      GroupsAbove previous gs ∧ lastSequenceOf previous gs = last ∧
      applyGroups apply target gs = .ok target' := by
  induction h with
  | nil => exact ⟨[], [], .nil, rfl, trivial, rfl, rfl⟩
  | @cons previous target g enc target₁ bytes last target' hframe habove happly _ ih =>
    obtain ⟨gs, encs, hframes, rfl, hgroups, hlast, hgs⟩ := ih
    refine ⟨g :: gs, enc :: encs, .cons hframe hframes, by simp, ⟨habove, hgroups⟩, hlast, ?_⟩
    rw [applyGroups, happly]
    exact hgs

/-- `Replay` of the log and an incomplete record behind it. -/
theorem replay_eq (h : Replayed apply limits previous target bytes last target') {tail : Bytes}
    (htail : TornTail limits tail) :
    ∃ result, replay apply limits previous (bytes ++ tail) target = .ok (result, target') ∧
      max previous result.maxSequence = last ∧ result.validBytes = bytes.length ∧
      result.truncatedTail = decide (tail ≠ []) := by
  obtain ⟨gs, encs, hframes, rfl, hgroups, rfl, hgs⟩ := h.exists_groups
  refine ⟨_, by rw [replay_frames hframes htail hgroups, hgs]; rfl, ?_, Nat.zero_add _, rfl⟩
  dsimp only
  split
  · rename_i hnil
    rw [hnil]
    exact Nat.max_eq_left (Nat.zero_le _)
  · exact Nat.max_eq_right hgroups.le_lastSequenceOf

end Replayed

/-! ## What replay accepted -/

/-- A record that replay accepts is complete, and its sequences are above the one before it. -/
theorem isFrame_of_decodeFrame {version previous n : ℕ} {rest : Bytes} {g : List InternalEntry}
    (h : decodeFrame limits version previous (rest.take (16 + n)) = .ok g)
    (hfull : 16 + n ≤ rest.length) (hn : n < 2 ^ 32) :
    IsFrame limits g (rest.take (16 + n)) ∧
      ∀ e ∈ g, previous < e.sequence ∧ e.sequence < 2 ^ 64 := by
  obtain ⟨r, henc, rfl, hlt, hfront⟩ := decodeFrame_eq_ok h
  have hlength := henc.length_eq
  rw [List.length_take, Nat.min_eq_left hfull] at hlength
  refine ⟨henc.isFrame (by omega), fun e he => ⟨?_, hlt e he⟩⟩
  cases r with
  | single e' =>
    obtain rfl := List.mem_singleton.mp he
    exact hfront _ rfl
  | batch es =>
    cases es with
    | nil => cases he
    | cons a es => exact (hfront a rfl).trans_le (henc.fits.front_le e he)

/-- The bytes that replay consumed are complete records. -/
theorem replayLoop_replayed {fuel : ℕ} :
    ∀ {rest : Bytes} {previous : ℕ} {result result' : WalReplayResult} {target target' : σ},
      replayLoop apply limits fuel rest previous result target = .ok (result', target') →
      rest.length < fuel → result.truncatedTail = false →
      ∃ bytes tail last, rest = bytes ++ tail ∧
        Replayed apply limits previous target bytes last target' ∧
        result'.maxSequence = (if bytes = [] then result.maxSequence else last) ∧
        result'.validBytes = result.validBytes + bytes.length ∧
        (result'.truncatedTail = false → tail = []) := by
  induction fuel with
  | zero => intro _ _ _ _ _ _ _ hfuel; exact absurd hfuel (Nat.not_lt_zero _)
  | succ fuel ih =>
    intro rest previous result result' target target' h hfuel hnot
    have hstop : ∀ {r : WalReplayResult}, r.maxSequence = result.maxSequence →
        r.validBytes = result.validBytes → (r.truncatedTail = false → rest = []) →
        ∃ bytes tail last, rest = bytes ++ tail ∧
          Replayed apply limits previous target bytes last target ∧
          r.maxSequence = (if bytes = [] then result.maxSequence else last) ∧
          r.validBytes = result.validBytes + bytes.length ∧ (r.truncatedTail = false → tail = []) :=
      fun hmax hvalid htail => ⟨[], rest, previous, rfl, .nil, by simp [hmax], by simp [hvalid], htail⟩
    rw [replayLoop] at h
    split at h
    · rename_i hnil
      cases h
      exact hstop rfl rfl fun _ => hnil
    split at h
    · cases h
      exact hstop rfl rfl (by simp)
    dsimp only at h
    split at h
    · cases h
    split at h
    · cases h
    split at h
    · cases h
      exact hstop rfl rfl (by simp)
    rename_i hheader _ _ hpayload
    set n := (getFixed32 rest 8).getD 0 with hn
    split at h
    · cases h
    rename_i g hdecode
    split at h
    · cases h
    rename_i target₁ happly
    simp only [kWalHeaderSize] at hheader hpayload hdecode h
    obtain ⟨hframe, habove⟩ := isFrame_of_decodeFrame hdecode (by omega) (getFixed32_lt rest 8)
    have hlength : (rest.take (16 + n)).length = 16 + n := by
      rw [List.length_take]
      omega
    obtain ⟨bytes, tail, last, hrest, hreplayed, hmax, hvalid, htail⟩ :=
      ih h (by rw [List.length_drop]; omega) hnot
    have hne : rest.take (16 + n) ++ bytes ≠ [] := by
      rw [← List.length_pos_iff, List.length_append, hlength]
      omega
    refine ⟨rest.take (16 + n) ++ bytes, tail, last, ?_, .cons hframe habove happly hreplayed, ?_, ?_,
      htail⟩
    · rw [List.append_assoc, ← hrest, List.take_append_drop]
    · rw [if_neg hne, hmax]
      split
      · rename_i hnil
        rw [hnil] at hreplayed
        exact hreplayed.of_nil.1.symm
      · rfl
    · rw [hvalid, List.length_append, hlength, Nat.add_assoc]

/-- The valid bytes of a file are a log that replays. -/
theorem replayed_of_replay {floor : ℕ} {file : Bytes} {result : WalReplayResult} {target target' : σ}
    (h : replay apply limits floor file target = .ok (result, target')) :
    Replayed apply limits floor target (file.take result.validBytes) (max floor result.maxSequence)
        target' ∧
      (result.truncatedTail = false → file.take result.validBytes = file) := by
  obtain ⟨bytes, tail, last, hfile, hreplayed, hmax, hvalid, htail⟩ :=
    replayLoop_replayed h (Nat.lt_succ_self _) rfl
  have htake : file.take result.validBytes = bytes := by
    rw [hvalid, hfile, Nat.zero_add]
    exact List.take_left' rfl
  have hlast : max floor result.maxSequence = last := by
    rw [hmax]
    split
    · rename_i hnil
      rw [hnil] at hreplayed
      rw [hreplayed.of_nil.1]
      exact Nat.max_eq_left (Nat.zero_le _)
    · exact Nat.max_eq_right hreplayed.le_last
  rw [htake, hlast]
  refine ⟨hreplayed, fun hnot => ?_⟩
  rw [hfile, htail hnot, List.append_nil]

end TinyLsm
