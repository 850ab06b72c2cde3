import HEDB.RecordReplay.Choice
import HEDB.RecordReplay.Desenitizer

/-!
# The end of a log

Nothing marks the end of a log. What stands after its last record is what the file held there
before, up to the first `DATA_LENGTH` bytes, and zeros behind (`resized`, `file_of_recordAll`): the
recorder opens its file without truncating it, sets its size when it needs room, and writes the
records over what is there.

A reader goes on when the next four bytes are an opcode that it accepts (`furtherRecord_iff`). After
a recording in a new file they are zero (`not_furtherRecord_of_le`), and no command has that number.
-/

namespace HEDB

open Layout

namespace Recorder

/-! ## What is left of an old file -/

/-- The file when `n` bytes have been written over `old`. Before the first byte its size has not
been set. -/
def resized (old : List UInt8) (n : ℕ) : List UInt8 :=
  if n = 0 then old
  else ftruncate (ftruncate old dataLength) (dataLength * ((n + dataLength - 1) / dataLength))

/-- What has not been written yet is what is left of the old file. -/
structure Tail (old : List UInt8) (r : Recorder) : Prop where
  length_eq : r.fileLength = dataLength * ((r.fileCursor + dataLength - 1) / dataLength)
  unset : r.fileLength = 0 → r.file = old
  set : 0 < r.fileLength → r.file.length = r.fileLength ∧
    r.file.drop r.fileCursor =
      (ftruncate (ftruncate old dataLength) r.fileLength).drop r.fileCursor

variable {old : List UInt8} {r r' : Recorder} {n : ℕ} {args : List (List UInt8)}

theorem tail_updateWriteFd (old : List UInt8) : Tail old (updateWriteFd old) :=
  ⟨by simp [updateWriteFd, dataLength], fun _ => rfl, fun h => absurd h (Nat.lt_irrefl 0)⟩

section Arithmetic

variable {l c k : ℕ}

theorem roundUp_extend (hl : l = dataLength * ((c + dataLength - 1) / dataLength))
    (hlt : l < c + k) (hle : c + k ≤ l + dataLength) :
    l + dataLength = dataLength * ((c + k + dataLength - 1) / dataLength) := by
  unfold dataLength at *
  omega

theorem roundUp_keep (hl : l = dataLength * ((c + dataLength - 1) / dataLength)) (hle : c + k ≤ l) :
    l = dataLength * ((c + k + dataLength - 1) / dataLength) := by
  unfold dataLength at *
  omega

theorem dataLength_le (hl : l = dataLength * ((c + dataLength - 1) / dataLength)) (h0 : 0 < l) :
    dataLength ≤ l := by
  unfold dataLength at *
  omega

end Arithmetic

/-- A property that filling a span keeps is kept by recording. -/
theorem recordAll_induction {P : Recorder → Prop}
    (hput : ∀ r r' args, r.Inv → P r → r.put (rrprintf args).length args = some r' → P r')
    (hi : r.Inv) (h : P r) {ms : List (Mem × Bytes sizeofUint64)} (hr : r.recordAll ms = some r') :
    P r' := by
  have hspans (ss : List (ℕ × List (List UInt8))) (hex : Exact ss) (r r' : Recorder) (hi : r.Inv)
      (h : P r) (hr : ss.foldlM (fun r s => r.put s.1 s.2) r = some r') : P r' := by
    induction ss generalizing r with
    | nil =>
      obtain rfl := Option.some.inj hr
      exact h
    | cons s ss ih =>
      rw [List.foldlM_cons] at hr
      obtain ⟨r₁, hr₁, hr₂⟩ := Option.bind_eq_some_iff.mp hr
      have hs := hex s List.mem_cons_self
      refine ih (fun t ht => hex t (List.mem_cons_of_mem _ ht)) r₁ (put_of_some hi hs hr₁).1 ?_ hr₂
      exact hput r r₁ s.2 hi h (by rw [hs]; exact hr₁)
  induction ms generalizing r with
  | nil =>
    obtain rfl := Option.some.inj hr
    exact h
  | cons m ms ih =>
    rw [recordAll, List.foldlM_cons] at hr
    obtain ⟨r₁, hr₁, hr₂⟩ := Option.bind_eq_some_iff.mp hr
    obtain ⟨ss, hss, hfold⟩ := Option.bind_eq_some_iff.mp hr₁
    exact ih (record_of_some hi hr₁).1 (hspans ss (spans_exact hss) r r₁ hi h hfold) hr₂

/-- A span that makes the file longer. -/
theorem Tail.extend (hi : r.Inv) (h : Tail old r) {bs : List UInt8}
    (hlt : r.fileLength < r.fileCursor + bs.length)
    (hle : r.fileCursor + bs.length ≤ r.fileLength + dataLength) :
    Tail old ⟨pwrite (ftruncate r.file (r.fileLength + dataLength)) r.fileCursor bs,
      r.fileLength + dataLength, r.fileCursor + bs.length⟩ := by
  have hc := hi.cursor_le
  have hpos : r.fileCursor ≤ (ftruncate r.file (r.fileLength + dataLength)).length := by
    rw [length_ftruncate]
    omega
  refine ⟨roundUp_extend h.length_eq hlt hle, fun h0 => ?_, fun _ => ⟨?_, ?_⟩⟩
  · dsimp only at h0
    omega
  · rw [length_pwrite, length_ftruncate]
    rw [length_ftruncate]
    exact hle
  · dsimp only
    rw [drop_pwrite hpos]
    rcases Nat.eq_zero_or_pos r.fileLength with h0 | h0
    · -- The size is set for the first time.
      rw [h.unset h0, h0, Nat.zero_add, ftruncate_of_le (length_ftruncate old dataLength).le,
        length_ftruncate, Nat.sub_self, List.replicate_zero, List.append_nil]
    · -- Both sides have only zeros left.
      obtain ⟨hfile, -⟩ := h.set h0
      have hD := dataLength_le h.length_eq h0
      rw [drop_ftruncate (by omega), drop_ftruncate (by rw [length_ftruncate]; omega)]

theorem Tail.put (hi : r.Inv) (h : Tail old r)
    (hp : r.put (rrprintf args).length args = some r') : Tail old r' := by
  simp only [Recorder.put, getWriteBuffer, store] at hp
  by_cases hlt : r.fileLength < r.fileCursor + (rrprintf args).length
  · simp only [if_pos hlt] at hp
    split_ifs at hp with hle
    cases hp
    exact h.extend hi hlt hle
  · simp only [if_neg hlt] at hp
    split_ifs at hp with hle
    cases hp
    have hfile := hi.length_le
    have hcursor : r.fileCursor ≤ r.file.length := hi.cursor_le.trans hfile
    refine ⟨roundUp_keep h.length_eq hle, fun h0 => ?_, fun h0 => ?_⟩
    · dsimp only at h0 hle ⊢
      have hargs : rrprintf args = [] := List.eq_nil_of_length_eq_zero (by omega)
      have hc : r.fileCursor = 0 := by omega
      rw [hargs, hc, h.unset h0]
      rfl
    · obtain ⟨hlen, hdrop⟩ := h.set h0
      refine ⟨by rw [length_pwrite (by omega)]; exact hlen, ?_⟩
      dsimp only
      rw [drop_pwrite hcursor, ← List.drop_drop, hdrop, List.drop_drop]

/-- What the old file held behind a short recording is still there. -/
theorem rest_resized {x y tl : List UInt8} (hx : 0 < x.length)
    (hle : x.length + y.length ≤ dataLength) :
    ∃ tl', (Cursor.mk (resized (x ++ (y ++ tl)) x.length) x.length).rest = y ++ tl' := by
  have hround : dataLength * ((x.length + dataLength - 1) / dataLength) = dataLength := by
    unfold dataLength at *
    omega
  have htake : (x ++ (y ++ tl)).take dataLength =
      x ++ (y ++ tl.take (dataLength - x.length - y.length)) := by
    rw [List.take_append, List.take_append, List.take_of_length_le (by omega),
      List.take_of_length_le (by omega)]
  rw [Cursor.rest, resized, if_neg hx.ne', hround, ftruncate_of_le (length_ftruncate _ _).le,
    length_ftruncate, Nat.sub_self, List.replicate_zero, List.append_nil, ftruncate, htake,
    List.append_assoc, List.append_assoc, List.drop_left]
  exact ⟨_, rfl⟩

/-- **The log after a run of records**: the records, and what is left of the old file behind
them. -/
theorem file_of_recordAll {ms : List (Mem × Bytes sizeofUint64)}
    (h : (updateWriteFd old).recordAll ms = some r) :
    r.file = (ms.flatMap fun m => encoding m.1 m.2) ++
      (resized old (ms.flatMap fun m => encoding m.1 m.2).length).drop
        (ms.flatMap fun m => encoding m.1 m.2).length := by
  obtain ⟨hi, hc⟩ := recordAll_of_some (inv_updateWriteFd old) h
  have ht : Tail old r := recordAll_induction (fun _ _ _ hi h hp => h.put hi hp)
    (inv_updateWriteFd old) (tail_updateWriteFd old) h
  rw [contents_updateWriteFd, List.nil_append] at hc
  rw [← hc, hi.length_contents]
  nth_rewrite 1 [r.file_eq_contents_append]
  congr 1
  rcases Nat.eq_zero_or_pos r.fileLength with h0 | h0
  · have hcursor : r.fileCursor = 0 := Nat.le_zero.mp (h0 ▸ hi.cursor_le)
    rw [ht.unset h0, hcursor]
    rfl
  · have hcursor : r.fileCursor ≠ 0 := by
      intro hzero
      have hlen := ht.length_eq
      rw [hzero] at hlen
      simp [dataLength] at hlen
      omega
    rw [(ht.set h0).2, resized, if_neg hcursor, ← ht.length_eq]

end Recorder

/-! ## Further records -/

/-- Some reader takes the bytes at the cursor for a record. -/
def FurtherRecord (c : Cursor) : Prop :=
  (∃ (frame m : Mem) (previousOp : ℤ) (k : Cmd), ¬ Replayer.NotReplayed k.code ∧
      m.int reqType = k.code ∧
      Replayer.NoError (Replayer.replayRequest frame c m previousOp).1) ∨
    ∃ frame m : Mem, (Desenitizer.retrieve frame c m).1 ≠ .returned (-1) ∧
      (Desenitizer.retrieve frame c m).1 ≠ .returned (-2) ∧
      (Desenitizer.retrieve frame c m).1 ≠ .exited

/-- The switch of `retrieve_request_from_file` leaves out what is not replayed. -/
theorem Desenitizer.retrieveBranch_exited {o : Option Cmd} {frame m : Mem} {c : Cursor}
    (h : (retrieveBranch frame c m o).1 ≠ .exited) :
    ∃ k, o = some k ∧ ¬ Replayer.NotReplayed k.code := by
  cases o with
  | none => exact absurd rfl h
  | some k =>
    refine ⟨k, rfl, fun hk => h ?_⟩
    rcases hk with hk | hk | hk | hk | hk | hk | hk | hk <;>
      obtain rfl := Cmd.code_injective hk <;> rfl

/-- **A reader goes on exactly when the next four bytes are the number of a command that is
replayed.** Bytes that are not there are those of its stack. -/
theorem furtherRecord_iff {c : Cursor} : FurtherRecord c ↔ ∃ (frame : Mem) (k : Cmd),
    ¬ Replayer.NotReplayed k.code ∧ bytesInt (c.fread (frame.read 0 4)).1 = k.code := by
  constructor
  · rintro (⟨frame, m, p, k, hk, ht, hno⟩ | ⟨frame, m, h1, h2, h3⟩)
    · refine ⟨frame, k, hk, ?_⟩
      by_contra hne
      simp only [Replayer.replayRequest, ht, if_pos (show _ ≠ _ from hne)] at hno
      exact hno
    · simp only [Desenitizer.retrieve] at h1 h2 h3
      by_cases hbytes : (c.rest.take 4).length < 1
      · exact absurd (by rw [if_pos hbytes]) h1
      · rw [if_neg hbytes] at h2 h3
        by_cases hop : bytesInt (c.fread (frame.read 0 4)).1 = 0
        · exact absurd (by rw [if_pos hop]) h2
        · rw [if_neg hop] at h3
          obtain ⟨k, hcode, hk⟩ := Desenitizer.retrieveBranch_exited h3
          exact ⟨frame, k, hk, Cmd.code_of_ofCode hcode⟩
  · rintro ⟨frame, k, hk, hop⟩
    have ht : (Mem.zero.setInt reqType k.code).int reqType = k.code :=
      Mem.int_setInt _ _ k.isInt_code
    refine .inl ⟨frame, Mem.zero.setInt reqType k.code, 0, k, hk, ht, ?_⟩
    simp only [Replayer.replayRequest, ht, hop, ne_eq, not_true_eq_false, if_false]
    exact (Replayer.keeps_replayBranch _ _ _).noError

/-- Only the bytes that are still to be read matter. -/
theorem furtherRecord_congr {c c' : Cursor} (h : c.rest = c'.rest) :
    FurtherRecord c ↔ FurtherRecord c' := by
  simp only [furtherRecord_iff, Cursor.fread, h]

/-- An opcode that is in the file does not depend on the stack. -/
theorem furtherRecord_of_rest {c : Cursor} {v : ℤ} (hv : IsInt v) {tl : List UInt8}
    (hc : c.rest = intBytes v ++ tl) :
    FurtherRecord c ↔ ∃ k : Cmd, ¬ Replayer.NotReplayed k.code ∧ v = k.code := by
  have hop (frame : Mem) : bytesInt (c.fread (frame.read 0 4)).1 = v := by
    rw [Cursor.fread_of_rest hc (by rw [Mem.length_read, length_intBytes]), bytesInt_intBytes hv]
  rw [furtherRecord_iff]
  constructor
  · rintro ⟨frame, k, hk, h⟩
    exact ⟨k, hk, (hop frame).symm.trans h⟩
  · rintro ⟨k, hk, h⟩
    exact ⟨Mem.zero, k, hk, (hop _).trans h⟩

/-- **After a recording that is no shorter than the old file nothing follows**, as long as four
bytes of the file are left. -/
theorem not_furtherRecord_of_le {old : List UInt8} {n : ℕ} (hn : 0 < n) (hold : old.length ≤ n)
    (hroom : n + 4 ≤ dataLength * ((n + dataLength - 1) / dataLength)) :
    ¬ FurtherRecord ⟨Recorder.resized old n, n⟩ := by
  set l := dataLength * ((n + dataLength - 1) / dataLength) with hl
  have hD : dataLength ≤ l := Recorder.dataLength_le hl (by omega)
  have hzeros : (Recorder.resized old n).drop n = List.replicate (l - n) 0 := by
    rw [Recorder.resized, if_neg hn.ne', ← hl]
    rcases Nat.lt_or_ge n dataLength with hlt | hge
    · have hlD : l = dataLength := by
        unfold dataLength at *
        omega
      rw [hlD, ftruncate_of_le (length_ftruncate old dataLength).le, length_ftruncate,
        Nat.sub_self, List.replicate_zero, List.append_nil, drop_ftruncate hold]
    · rw [drop_ftruncate (by rwa [length_ftruncate])]
  have hrest : (Cursor.mk (Recorder.resized old n) n).rest =
      intBytes 0 ++ List.replicate (l - n - 4) 0 := by
    have hsplit : l - n = 4 + (l - n - 4) := by omega
    rw [Cursor.rest, hzeros]
    nth_rewrite 1 [hsplit]
    rw [List.replicate_add]
    rfl
  rw [furtherRecord_of_rest (by decide) hrest]
  rintro ⟨k, -, hk⟩
  exact k.code_pos.ne hk

end HEDB
