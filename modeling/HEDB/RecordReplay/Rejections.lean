import HEDB.RecordReplay.Choice
import HEDB.RecordReplay.FixedWidth

/-!
# Rejected requests

`replay_request` rejects a request by the return value `-RETRY_FAILED` or by an error, and by then
it has read the opcode of the record, and in most branches all of the record. It does not go back.
A call of `replay` that rejects its request therefore leaves the replayer as it was only where there
was nothing to read, or where it closes the files again that it had opened (`changesNothing_iff`).

What the branches have in common is that they only read on (`Cursor.ReadsTo`) and that they write to
the buffer only when they answer (`Keeps`).
-/

namespace HEDB

open Layout

/-! ## Reading on -/

namespace Cursor

/-- The cursor `c'` is where some reads from `c` on have ended. -/
def ReadsTo (c c' : Cursor) : Prop := ∃ n ≤ c.rest.length, c' = c.advance n

variable {c c' c'' : Cursor}

theorem ReadsTo.refl (c : Cursor) : c.ReadsTo c := ⟨0, Nat.zero_le _, rfl⟩

theorem ReadsTo.trans (h : c.ReadsTo c') (h' : c'.ReadsTo c'') : c.ReadsTo c'' := by
  obtain ⟨n, hn, rfl⟩ := h
  obtain ⟨k, hk, rfl⟩ := h'
  rw [length_rest_advance] at hk
  exact ⟨n + k, by omega, c.advance_advance n k⟩

theorem readsTo_fread (c : Cursor) (dst : List UInt8) : c.ReadsTo (c.fread dst).2 :=
  ⟨_, by rw [List.length_take]; omega, rfl⟩

theorem ReadsTo.fread (h : c.ReadsTo c') (dst : List UInt8) : c.ReadsTo (c'.fread dst).2 :=
  h.trans (c'.readsTo_fread dst)

theorem ReadsTo.pos_le (h : c.ReadsTo c') : c.pos ≤ c'.pos := by
  obtain ⟨n, -, rfl⟩ := h
  exact Nat.le_add_right _ _

/-- At the end of the file nothing moves. -/
theorem ReadsTo.eq_of_rest (h : c.ReadsTo c') (hc : c.rest = []) : c' = c := by
  obtain ⟨n, hn, rfl⟩ := h
  rw [hc, List.length_nil, Nat.le_zero] at hn
  rw [hn, advance_zero]

/-- Before the end of the file every read moves. -/
theorem pos_lt_fread (hc : c.rest ≠ []) {dst : List UInt8} (hdst : dst ≠ []) :
    c.pos < (c.fread dst).2.pos := by
  have hrest := List.length_pos_of_ne_nil hc
  have hlen := List.length_pos_of_ne_nil hdst
  simp only [Cursor.fread, advance, List.length_take]
  omega

end Cursor

namespace Replayer

section Branches

variable (frame : Mem) {c c' : Cursor} (m : Mem)

theorem readsTo_ite {p : Prop} [Decidable p] {x y : Outcome × Cursor × Mem}
    (hx : c.ReadsTo x.2.1) (hy : c.ReadsTo y.2.1) : c.ReadsTo (if p then x else y).2.1 := by
  split
  · exact hx
  · exact hy

theorem readsTo_replayCmp (h : c.ReadsTo c') (w : ℕ) :
    c.ReadsTo (replayCmp frame c' m w).2.1 :=
  readsTo_ite (h.fread _) (h.fread _)

theorem readsTo_replayCalc (h : c.ReadsTo c') (w : ℕ) :
    c.ReadsTo (replayCalc frame c' m w).2.1 :=
  readsTo_ite (h.fread _) (h.fread _)

theorem readsTo_replayYear (h : c.ReadsTo c') : c.ReadsTo (replayYear frame c' m).2.1 :=
  readsTo_ite (h.fread _) (h.fread _)

theorem readsTo_replayBulk (h : c.ReadsTo c') (w : ℕ) :
    c.ReadsTo (replayBulk frame c' m w).2.1 :=
  readsTo_ite (h.fread _) <| readsTo_ite (h.fread _) <|
    readsTo_ite ((h.fread _).fread _) ((h.fread _).fread _)

theorem readsTo_replayStrCmp (h : c.ReadsTo c') : c.ReadsTo (replayStrCmp frame c' m).2.1 := by
  have hlengths := (h.fread (frame.read 8 4)).fread (frame.read 12 4)
  exact readsTo_ite hlengths (readsTo_ite hlengths (hlengths.fread _))

theorem readsTo_replaySubstring (h : c.ReadsTo c') :
    c.ReadsTo (replaySubstring frame c' m).2.1 := by
  have hlengths := (h.fread (frame.read 8 4)).fread (frame.read 12 4)
  exact readsTo_ite hlengths (readsTo_ite hlengths
    (readsTo_ite (hlengths.fread _) (hlengths.fread _)))

theorem readsTo_replayConcat (h : c.ReadsTo c') : c.ReadsTo (replayConcat frame c' m).2.1 := by
  have hlengths := ((h.fread (frame.read 8 4)).fread (frame.read 12 4)).fread (frame.read 16 4)
  exact readsTo_ite hlengths (readsTo_ite hlengths
    (readsTo_ite (hlengths.fread _) (hlengths.fread _)))

theorem readsTo_replayBranch (h : c.ReadsTo c') : c.ReadsTo (replayBranch frame c' m).2.1 := by
  unfold replayBranch
  dsimp only
  repeat' split
  · exact readsTo_replayCmp frame m h _
  · exact readsTo_replayBulk frame m h _
  · exact readsTo_replayCalc frame m h _
  · exact readsTo_replayCmp frame m h _
  · exact readsTo_replayBulk frame m h _
  · exact readsTo_replayCalc frame m h _
  · exact readsTo_replayStrCmp frame m h
  · exact readsTo_replaySubstring frame m h
  · exact readsTo_replayConcat frame m h
  · exact readsTo_replayCmp frame m h _
  · exact readsTo_replayYear frame m h
  · exact h
  · exact h

end Branches

/-! ## One rejected request -/

/-- `replay_request` rejects the request, by its return value or by an error. -/
def Rejects : Outcome → Prop
  | .retryFailed => True
  | .error _ _ _ _ => True
  | _ => False

/-- The opcode that `replay_request` reads is the one of the request. -/
def OpcodeFits (frame : Mem) (c : Cursor) (m : Mem) : Prop :=
  bytesInt (c.fread (frame.read 0 4)).1 = m.int reqType

section Request

variable {frame : Mem} {c : Cursor} {m : Mem} {previousOp : ℤ}

theorem opcode_readsTo : (c.fread (frame.read 0 4)).2.ReadsTo
    (replayRequest frame c m previousOp).2.1 :=
  readsTo_ite (.refl _) (readsTo_replayBranch frame m (.refl _))

/-- `replay_request` moves the file position, unless the file is at its end. -/
theorem cursor_replayRequest_eq_iff : (replayRequest frame c m previousOp).2.1 = c ↔
    c.rest = [] := by
  have hread : (c.fread (frame.read 0 4)).2.ReadsTo
      (replayRequest frame c m previousOp).2.1 := opcode_readsTo
  constructor
  · intro heq
    by_contra hc
    have hmoved : c.pos < (c.fread (frame.read 0 4)).2.pos :=
      Cursor.pos_lt_fread hc (List.ne_nil_of_length_pos (by rw [Mem.length_read]; decide))
    have hle := hread.pos_le
    rw [heq] at hle
    omega
  · intro hc
    exact ((c.readsTo_fread _).trans hread).eq_of_rest hc

/-- A rejected request leaves the buffer as it is. -/
theorem buffer_of_rejects (h : Rejects (replayRequest frame c m previousOp).1) :
    (replayRequest frame c m previousOp).2.2 = m := by
  by_cases hretry : (replayRequest frame c m previousOp).1 = .retryFailed
  · exact buffer_of_retryFailed frame c m previousOp hretry
  · simp only [replayRequest] at h hretry ⊢
    split
    · rfl
    · rename_i hop
      rw [if_neg hop] at h hretry
      -- after the opcode there is no error any more
      have hno := (keeps_replayBranch frame (c.fread (frame.read 0 4)).2 m).noError
      revert h hretry hno
      rcases (replayBranch frame (c.fread (frame.read 0 4)).2 m).1 with _ | _ | _ | _ <;>
        simp [Rejects, NoError]

theorem opcodeFits_of_retryFailed
    (h : (replayRequest frame c m previousOp).1 = .retryFailed) : OpcodeFits frame c m := by
  by_contra hop
  rw [OpcodeFits] at hop
  simp only [replayRequest, ne_eq, hop, not_false_eq_true, if_true] at h
  cases h

theorem not_opcodeFits_of_error {p : ℕ} {op t prev : ℤ}
    (h : (replayRequest frame c m previousOp).1 = .error p op t prev) :
    ¬ OpcodeFits frame c m := by
  intro hop
  have hno := (keeps_replayBranch frame (c.fread (frame.read 0 4)).2 m).noError
  rw [OpcodeFits] at hop
  simp only [replayRequest, ne_eq, hop, not_true_eq_false, if_false] at h
  rw [h] at hno
  exact hno

theorem answerFrom_of_rejects {rp : Replayer}
    (h : Rejects (replayRequest frame c m rp.previousOp).1) :
    (answerFrom frame rp c m).2 =
      ({ rp with replayFile := some (replayRequest frame c m rp.previousOp).2.1 }, m) := by
  have hm := buffer_of_rejects h
  simp only [answerFrom]
  revert h hm
  rcases replayRequest frame c m rp.previousOp with ⟨_ | _ | _ | _, c', m'⟩
  · exact fun h => h.elim
  · exact fun _ hm => Prod.ext rfl hm
  · exact fun _ hm => Prod.ext rfl hm
  · exact fun h => h.elim

theorem answerFrom_of_retryFailed {rp : Replayer}
    (h : (replayRequest frame c m rp.previousOp).1 = .retryFailed) :
    (answerFrom frame rp c m).1 = .returned retryFailed := by
  simp only [answerFrom]
  revert h
  rcases replayRequest frame c m rp.previousOp with ⟨_ | _ | _ | _, c', m'⟩ <;> simp

theorem answerFrom_of_error {rp : Replayer} {p : ℕ} {op t prev : ℤ}
    (h : (replayRequest frame c m rp.previousOp).1 = .error p op t prev) :
    (answerFrom frame rp c m).1 = .raised p op t prev := by
  simp only [answerFrom]
  revert h
  rcases replayRequest frame c m rp.previousOp with ⟨_ | _ | _ | _, c', m'⟩ <;> simp

end Request

/-! ## A rejected call -/

section Calls

variable (fs : String → List UInt8) (frame : Mem) (rp : Replayer) (m : Mem)

/-- `replay_request` rejects the request at each of the log files that the loop of `replay` opens:
the loop goes on after the return value and is left by the error. -/
def RejectedBy : List String → Prop
  | [] => True
  | filename :: rest =>
    (replayRequest frame ⟨fs filename, 0⟩ m rp.previousOp).1 = .retryFailed ∧ RejectedBy rest ∨
      ∃ p op t prev, (replayRequest frame ⟨fs filename, 0⟩ m rp.previousOp).1 =
        .error p op t prev

/-- A call of `replay` in which `replay_request` rejects the request. -/
def RejectsCall : Prop :=
  ¬ NotReplayed (m.int reqType) ∧
    match rp.replayFile with
    | some c => Rejects (replayRequest frame c m rp.previousOp).1
    | none => RejectedBy fs frame rp m rp.filenames

/-- The call leaves the file position, the chosen file and the buffer as they are. -/
def ChangesNothing : Prop := (replay fs frame rp m).2 = (rp, m)

variable {fs frame rp m}

/-- The loop over the log files closes a file whose record does not fit, and leaves the one open at
which the error is raised. -/
theorem tryFiles_of_rejectedBy (hrp : rp.replayFile = none) {names : List String}
    (h : RejectedBy fs frame rp m names) :
    (tryFiles fs frame rp m names).2 = (rp, m) ↔
      ∀ filename ∈ names, OpcodeFits frame ⟨fs filename, 0⟩ m := by
  induction names with
  | nil =>
    refine iff_of_true ?_ (List.forall_mem_nil _)
    rw [tryFiles, ← hrp]
  | cons filename rest ih =>
    rw [tryFiles_cons, List.forall_mem_cons]
    rcases h with ⟨hretry, hrest⟩ | ⟨p, op, t, prev, herr⟩
    · have hrej : Rejects (replayRequest frame ⟨fs filename, 0⟩ m rp.previousOp).1 := by
        rw [hretry]
        trivial
      have hclosed : ({ rp with replayFile := none } : Replayer) = rp := by rw [← hrp]
      rw [if_pos (answerFrom_of_retryFailed hretry), answerFrom_of_rejects hrej, hclosed, ih hrest]
      exact ⟨fun hfits => ⟨opcodeFits_of_retryFailed hretry, hfits⟩, And.right⟩
    · have hrej : Rejects (replayRequest frame ⟨fs filename, 0⟩ m rp.previousOp).1 := by
        rw [herr]
        trivial
      rw [answerFrom_of_error herr, if_neg Ret.noConfusion, answerFrom_of_rejects hrej]
      refine iff_of_false (fun heq => ?_) fun hfits => not_opcodeFits_of_error herr hfits.1
      have hfile := congrArg (fun x : Replayer × Mem => x.1.replayFile) heq
      simp only [hrp] at hfile
      cases hfile

/-- **What a rejected call leaves behind**: with a file chosen, the replayer is as it was only if
that file was at its end. While no file is chosen it is as it was exactly if every log file starts
with the opcode of the request: the others are left open by the error. -/
theorem changesNothing_iff (fs : String → List UInt8) (frame : Mem) (rp : Replayer) (m : Mem)
    (h : RejectsCall fs frame rp m) :
    ChangesNothing fs frame rp m ↔
      match rp.replayFile with
      | some c => c.rest = []
      | none => ∀ filename ∈ rp.filenames, OpcodeFits frame ⟨fs filename, 0⟩ m := by
  obtain ⟨hreq, hrej⟩ := h
  rw [ChangesNothing, replay, if_neg hreq]
  rcases hfile : rp.replayFile with _ | c
  · simp only [hfile] at hrej
    exact tryFiles_of_rejectedBy hfile hrej
  · simp only [hfile] at hrej
    have hcursor : (replayRequest frame c m rp.previousOp).2.1 = c ↔ c.rest = [] :=
      cursor_replayRequest_eq_iff
    rw [answerFrom_of_rejects hrej]
    refine Iff.trans ⟨fun heq => ?_, fun heq => ?_⟩ hcursor
    · have hopen := congrArg (fun x : Replayer × Mem => x.1.replayFile) heq
      simpa only [hfile, Option.some.injEq] using hopen
    · rw [heq, ← hfile]

end Calls

/-! ## The request after a rejected one -/

/-- `CMD_INT_MINUS` on the same ciphertexts. -/
def minusBuffer : Mem :=
  (Request.calcNum .int .minus (zeroBytes _) (zeroBytes _)).serializeTo Mem.zero

/-- `CMD_INT_PLUS` on other ciphertexts. -/
def otherBuffer : Mem :=
  (Request.calcNum .int .plus ⟨List.replicate _ 3, List.length_replicate⟩ (zeroBytes _)).serializeTo
    Mem.zero

/-- Two logs that start with a sum. -/
def sumLogs (name : String) : List UInt8 :=
  if name = "a.log" then samplePlus.encoding else samplePlus.encoding ++ sampleCmp.encoding

/-- A sum of other ciphertexts is in neither of the two logs. -/
theorem changesNothing_two_logs :
    RejectsCall sumLogs Mem.zero (start ["a.log", "b.log"] 0) otherBuffer ∧
      ChangesNothing sumLogs Mem.zero (start ["a.log", "b.log"] 0) otherBuffer := by
  have hretry : ∀ name, (replayRequest Mem.zero ⟨sumLogs name, 0⟩ otherBuffer 0).1 =
      .retryFailed := by
    intro name
    obtain ⟨tl, htl⟩ : ∃ tl, (Cursor.mk (sumLogs name) 0).rest = samplePlus.encoding ++ tl := by
      rw [sumLogs]
      split
      · exact ⟨[], (List.append_nil _).symm⟩
      · exact ⟨_, rfl⟩
    have hleft : otherBuffer.read calcLeft encInt32Length ≠ List.replicate encInt32Length 0 := by
      decide +kernel
    rw [replayRequest_calc samplePlus.holds rfl htl, if_neg fun h => hleft h.1]
  have hrej : RejectsCall sumLogs Mem.zero (start ["a.log", "b.log"] 0) otherBuffer :=
    ⟨by decide, .inl ⟨hretry _, .inl ⟨hretry _, trivial⟩⟩⟩
  exact ⟨hrej, (changesNothing_iff _ _ _ _ hrej).mpr fun name _ =>
    opcodeFits_of_retryFailed (hretry name)⟩

/-- **A rejected subtraction takes the record of the sum away**: asked first, the sum is answered
from its record. After the subtraction was rejected, the sum is an error. -/
theorem rejected_consumes :
    let rp : Replayer := ⟨some ⟨samplePlus.encoding, 0⟩, [], 0⟩
    let after := (replay (fun _ => []) Mem.zero rp minusBuffer).2.1
    RejectsCall (fun _ => []) Mem.zero rp minusBuffer ∧
      ¬ ChangesNothing (fun _ => []) Mem.zero rp minusBuffer ∧
      (replay (fun _ => []) Mem.zero rp samplePlus.buf).1 = .returned 0 ∧
      (replay (fun _ => []) Mem.zero after samplePlus.buf).1 = .raised 8 0 1 0 := by
  have hc : (Cursor.mk samplePlus.encoding 0).rest =
      intBytes Cmd.intPlus.code ++ samplePlus.encoding.drop 4 := by
    have hop : samplePlus.encoding.take 4 = intBytes Cmd.intPlus.code := by decide
    rw [← hop]
    exact (List.take_append_drop 4 _).symm
  have hreject : replayRequest Mem.zero ⟨samplePlus.encoding, 0⟩ minusBuffer 0 =
      (.error 4 1 2 0, ⟨samplePlus.encoding, 4⟩, minusBuffer) := by
    rw [replayRequest_of_ne (by decide) hc]
    rfl
  have hafter : (replay (fun _ => []) Mem.zero ⟨some ⟨samplePlus.encoding, 0⟩, [], 0⟩
      minusBuffer).2.1 = ⟨some ⟨samplePlus.encoding, 4⟩, [], 0⟩ := by
    rw [replay, if_neg (by decide)]
    simp only [answerFrom, hreject]
  dsimp only
  refine ⟨⟨by decide, ?_⟩, fun hsame => ?_, by decide, ?_⟩
  · simp only [hreject, Rejects]
  · have hpos := congrArg (fun x => x.1.replayFile.map Cursor.pos) hsame
    simp only [hafter, Option.map_some, Option.some.injEq] at hpos
    cases hpos
  · rw [hafter]
    decide

end Replayer

end HEDB
