import HEDB.RecordReplay.Recorder

/-!
# The replayer

`Replayer::replay_request` reads the record at the cursor of the replay file, compares it with the
request in the buffer, and answers the request from it. `Replayer::replay` opens the log files one
by one at the first request and stays with the first that answers it.

`replay_request` returns `-RETRY_FAILED` when a record does not fit the request, so that `replay`
cannot tell a recorded `resp` of that value from a mismatch (`tryFiles`). When the opcode differs
it raises an error, a non-local exit. A copy past the end of a local buffer is a `fault`.

The stack frame of `replay_request` holds arbitrary bytes when it starts; they are the parameter
`frame`, and are seen wherever `fread` finds fewer bytes than it asks for.
-/

namespace HEDB

open Layout

/-- How `replay_request` ends. -/
inductive Outcome
  /-- It returns the `resp` of the record. -/
  | answer (resp : ℤ)
  /-- It returns `-RETRY_FAILED`. -/
  | retryFailed
  /-- `print_error("replay fail at %ld, op: %d, reqType: %d, previous_op: %d", ...)`. -/
  | error (at_ : ℕ) (op reqType previousOp : ℤ)
  /-- A copy leaves its buffer. -/
  | fault
  deriving DecidableEq, Repr

namespace Replayer

/-- `-RETRY_FAILED`, with `Replayer::RETRY_FAILED = -10086`. -/
def retryFailed : ℤ := 10086

/-- `Replayer::NOT_REPLAY`. -/
def notReplay : ℤ := -10087

/-- `rrprintf` in replay mode: cut pieces of the given lengths out of a buffer. -/
def rrprintf (fixBuf : List UInt8) : List ℕ → List (List UInt8)
  | [] => []
  | length :: args => fixBuf.take length :: rrprintf (fixBuf.drop length) args

/-! ## One record -/

section Requests

variable (frame : Mem) (c : Cursor) (m : Mem)

/-- A read into a local buffer of `n` bytes. -/
def readBuffer (n : ℕ) : List UInt8 × Cursor := c.fread (frame.read 64 n)

/-- A read of `n` bytes into `read_buffer_operators`. -/
def readOperators (n : ℕ) : List UInt8 × Cursor := c.fread (frame.read 128 n)

/-- The comparison of ciphertexts of `w` bytes. -/
def replayCmp (w : ℕ) : Outcome × Cursor × Mem :=
  let (buf, c) := readBuffer frame c (sizeofInt * 2 + w * 2 + sizeofUint64)
  match rrprintf buf [w, w, 4, 4, 8] with
  | [left, right, cmp, resp, _] =>
    if m.read cmpLeft w ≠ left ∨ m.read (cmpRight w) w ≠ right then (.retryFailed, c, m)
    else (.answer (bytesInt resp), c, m.write (cmpCmp w) cmp)
  | _ => (.fault, c, m)

/-- The loop that compares `n` recorded items with those of the request, from item `i` on. -/
def sameItems (w : ℕ) : List UInt8 → ℕ → ℕ → Bool
  | _, _, 0 => true
  | src, i, n + 1 => src.take w == m.read (bulkItems + w * i) w && sameItems w (src.drop w)
      (i + 1) n

/-- The bulk sum of ciphertexts of `w` bytes. -/
def replayBulk (w : ℕ) : Outcome × Cursor × Mem :=
  let (buf, c) := readBuffer frame c (sizeofInt * 2 + w + sizeofUint64)
  match rrprintf buf [4, w, 4, 8] with
  | [size, res, resp, _] =>
    let n := bytesInt size
    if n ≠ m.int Layout.bulkSize then (.retryFailed, c, m)
    else if n < 0 then (.fault, c, m)
    else
      let (src, c) := readOperators frame c (n.toNat * w)
      if sameItems m w src 0 n.toNat then
        (.answer (bytesInt resp), c, m.write (bulkRes w) res)
      else (.retryFailed, c, m)
  | _ => (.fault, c, m)

/-- The arithmetic on ciphertexts of `w` bytes. -/
def replayCalc (w : ℕ) : Outcome × Cursor × Mem :=
  let (buf, c) := readBuffer frame c (sizeofInt + w * 3 + sizeofUint64)
  match rrprintf buf [w, w, w, 4, 8] with
  | [left, right, res, resp, _] =>
    if left ≠ m.read calcLeft w ∨ right ≠ m.read (calcRight w) w then (.retryFailed, c, m)
    else (.answer (bytesInt resp), c, m.write (calcRes w) res)
  | _ => (.fault, c, m)

/-- The year extraction. -/
def replayYear : Outcome × Cursor × Mem :=
  let (buf, c) := readBuffer frame c
    (sizeofInt + encTimestampLength + encInt32Length + sizeofUint64)
  match rrprintf buf [encTimestampLength, encInt32Length, 4, 8] with
  | [input, out, resp, _] =>
    if input ≠ m.read yearIn encTimestampLength then (.retryFailed, c, m)
    else (.answer (bytesInt resp), c, m.write yearRes out)
  | _ => (.fault, c, m)

/-- A length that a local `EncStr` can hold. -/
def FitsEncStr (length : ℤ) : Prop := 0 ≤ length ∧ length ≤ sizeofEncStr

instance (length : ℤ) : Decidable (FitsEncStr length) := inferInstanceAs (Decidable (_ ∧ _))

/-- Text comparison and `LIKE`: the lengths of the operands are compared, their bytes are not. -/
def replayStrCmp : Outcome × Cursor × Mem :=
  let (leftLength, c) := c.fread (frame.read 8 4)
  let (rightLength, c) := c.fread (frame.read 12 4)
  let l := bytesInt leftLength
  let r := bytesInt rightLength
  if l ≠ Recorder.sizeAt m cmpLeft ∨ r ≠ Recorder.sizeAt m (cmpRight sizeofEncStr) then
    (.retryFailed, c, m)
  else if ¬ FitsEncStr l ∨ ¬ FitsEncStr r then (.fault, c, m)
  else
    let (buf, c) := readBuffer frame c (l.toNat + r.toNat + sizeofInt * 2 + sizeofUint64)
    match rrprintf buf [l.toNat, r.toNat, 4, 4, 8] with
    | [_, _, cmp, resp, _] => (.answer (bytesInt resp), c, m.write (cmpCmp sizeofEncStr) cmp)
    | _ => (.fault, c, m)

/-- The substring. -/
def replaySubstring : Outcome × Cursor × Mem :=
  let (strLength, c) := c.fread (frame.read 8 4)
  let (resultLength, c) := c.fread (frame.read 12 4)
  let s := bytesInt strLength
  let r := bytesInt resultLength
  if s ≠ Recorder.sizeAt m subStr then (.retryFailed, c, m)
  else if ¬ FitsEncStr s ∨ ¬ FitsEncStr r then (.fault, c, m)
  else
    let (buf, c) := readBuffer frame c
      (s.toNat + r.toNat + sizeofInt + encInt32Length * 2 + sizeofUint64)
    match rrprintf buf [s.toNat, encInt32Length, encInt32Length, r.toNat, 4, 8] with
    | [str, start, length, res, resp, _] =>
      if str ≠ m.read subStr s.toNat ∨ start ≠ m.read subStart encInt32Length ∨
          length ≠ m.read subLength encInt32Length then (.retryFailed, c, m)
      else (.answer (bytesInt resp), c, m.write subRes res)
    | _ => (.fault, c, m)

/-- The concatenation. -/
def replayConcat : Outcome × Cursor × Mem :=
  let (leftLength, c) := c.fread (frame.read 8 4)
  let (rightLength, c) := c.fread (frame.read 12 4)
  let (resLength, c) := c.fread (frame.read 16 4)
  let l := bytesInt leftLength
  let r := bytesInt rightLength
  let n := bytesInt resLength
  if l ≠ Recorder.sizeAt m calcLeft ∨ r ≠ Recorder.sizeAt m (calcRight sizeofEncStr) then
    (.retryFailed, c, m)
  else if ¬ FitsEncStr l ∨ ¬ FitsEncStr r ∨ ¬ FitsEncStr n then (.fault, c, m)
  else
    let (buf, c) := readBuffer frame c
      (sizeofInt + l.toNat + r.toNat + n.toNat + sizeofUint64)
    match rrprintf buf [l.toNat, r.toNat, n.toNat, 4, 8] with
    | [left, right, res, resp, _] =>
      if left ≠ m.read calcLeft l.toNat ∨ right ≠ m.read (calcRight sizeofEncStr) r.toNat then
        (.retryFailed, c, m)
      else (.answer (bytesInt resp), c, m.write (calcRes sizeofEncStr) res)
    | _ => (.fault, c, m)

/-- The part of `replay_request` after the opcode: the branch of the request type. A type with no
branch returns the uninitialised `resp`. -/
def replayBranch : Outcome × Cursor × Mem :=
  let t := m.int reqType
  if Cmd.floatPlus.code ≤ t ∧ t ≤ Cmd.floatSumBulk.code then
    if t = Cmd.floatCmp.code then replayCmp frame c m encFloat4Length
    else if t = Cmd.floatSumBulk.code then replayBulk frame c m encFloat4Length
    else replayCalc frame c m encFloat4Length
  else if Cmd.intPlus.code ≤ t ∧ t ≤ Cmd.intSumBulk.code then
    if t = Cmd.intCmp.code then replayCmp frame c m encInt32Length
    else if t = Cmd.intSumBulk.code then replayBulk frame c m encInt32Length
    else replayCalc frame c m encInt32Length
  else if Cmd.stringCmp.code ≤ t ∧ t ≤ Cmd.stringLike.code then
    if t = Cmd.stringCmp.code ∨ t = Cmd.stringLike.code then replayStrCmp frame c m
    else if t = Cmd.stringSubstring.code then replaySubstring frame c m
    else replayConcat frame c m
  else if Cmd.timestampCmp.code ≤ t ∧ t ≤ Cmd.timestampExtractYear.code then
    if t = Cmd.timestampCmp.code then replayCmp frame c m encTimestampLength
    else if t = Cmd.timestampExtractYear.code then replayYear frame c m
    else (.answer (bytesInt (frame.read 4 4)), c, m)
  else (.answer (bytesInt (frame.read 4 4)), c, m)

/-- `Replayer::replay_request`. -/
def replayRequest (previousOp : ℤ) : Outcome × Cursor × Mem :=
  let t := m.int reqType
  let (op, c) := c.fread (frame.read 0 4)
  if bytesInt op ≠ t then (.error c.pos (bytesInt op) t previousOp, c, m)
  else replayBranch frame c m

end Requests

end Replayer

/-! ## A session -/

/-- The replayer: the file that it replays, once chosen, the log files it chooses from, and the
last opcode that it answered. -/
structure Replayer where
  replayFile : Option Cursor
  filenames : List String
  previousOp : ℤ

namespace Replayer

/-- How `replay` ends. -/
inductive Ret
  | returned (v : ℤ)
  | raised (at_ : ℕ) (op reqType previousOp : ℤ)
  | fault
  deriving DecidableEq, Repr

/-- The requests that are never replayed. -/
def NotReplayed (t : ℤ) : Prop :=
  t = Cmd.floatEnc.code ∨ t = Cmd.floatDec.code ∨ t = Cmd.intEnc.code ∨ t = Cmd.intDec.code ∨
    t = Cmd.stringEnc.code ∨ t = Cmd.stringDec.code ∨ t = Cmd.timestampEnc.code ∨
    t = Cmd.timestampDec.code

instance (t : ℤ) : Decidable (NotReplayed t) := inferInstanceAs (Decidable (_ ∨ _))

section Session

variable (fs : String → List UInt8) (frame : Mem)

/-- Answer from the chosen file. -/
def answerFrom (rp : Replayer) (c : Cursor) (m : Mem) : Ret × Replayer × Mem :=
  match replayRequest frame c m rp.previousOp with
  | (.answer v, c', m') =>
    (.returned v, { rp with replayFile := some c', previousOp := m.int reqType }, m')
  | (.retryFailed, c', m') => (.returned retryFailed, { rp with replayFile := some c' }, m')
  | (.error p op t prev, c', m') => (.raised p op t prev, { rp with replayFile := some c' }, m')
  | (.fault, c', m') => (.fault, { rp with replayFile := some c' }, m')

/-- The loop over the log files at the first request: a file that returns `-RETRY_FAILED` is closed
and the next one is tried. -/
def tryFiles (rp : Replayer) (m : Mem) : List String → Ret × Replayer × Mem
  | [] => (.returned (-1), { rp with replayFile := none }, m)
  | filename :: rest =>
    match answerFrom frame rp ⟨fs filename, 0⟩ m with
    | (.returned v, rp', m') =>
      if v = retryFailed then tryFiles { rp' with replayFile := none } m' rest
      else (.returned v, rp', m')
    | out => out

/-- `Replayer::replay`. -/
def replay (rp : Replayer) (m : Mem) : Ret × Replayer × Mem :=
  if NotReplayed (m.int reqType) then (.returned notReplay, rp, m)
  else match rp.replayFile with
    | none => tryFiles fs frame rp m rp.filenames
    | some c => answerFrom frame rp c m

/-- A replayer that has just been given its log files. -/
def start (filenames : List String) (previousOp : ℤ) : Replayer := ⟨none, filenames, previousOp⟩

end Session

end Replayer

end HEDB
