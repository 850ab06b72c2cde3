import HEDB.RecordReplay.FixedWidth

/-!
# The log reader of the anonymizer

`retrieve_request_from_file` of the anonymizer is a third hand-written copy of the log format. It
reads the opcode of the next record, copies the operands into its request buffer and skips the rest
of the record by its length.

On the record of a logged request it puts the opcode and the operands of that request into the
buffer and moves exactly past the record (`retrieve_record`), so that calls on a whole log yield the
recorded requests in order (`retrieve_log`).

The bytes of the stack frame when the function starts are the parameter `frame`: `op` at 0, the
lengths from 8 on, and `read_buffer` at 64.
-/

namespace HEDB

open Layout

/-- How `retrieve_request_from_file` ends. -/
inductive Retrieved
  | returned (v : ℤ)
  /-- An unknown opcode: `exit(0)`. -/
  | exited
  /-- A copy leaves `read_buffer` or the request buffer. -/
  | fault
  deriving DecidableEq, Repr

namespace Desenitizer

/-- `sizeof(EncIntBulkRequestData)`, the size of `read_buffer` and of the request buffer. -/
def bufferSize : ℕ := bulkRes encInt32Length + encInt32Length

section Reader

variable (frame : Mem) (c : Cursor) (m : Mem)

/-- The comparison of ciphertexts of `w` bytes. -/
def retrieveCmp (w : ℕ) : Retrieved × Cursor × Mem :=
  let (src, c) := c.fread (frame.read 64 (sizeofInt * 2 + w * 2 + sizeofUint64))
  (.returned 0, c, (m.write cmpLeft (src.take w)).write (cmpRight w) ((src.drop w).take w))

/-- The arithmetic on ciphertexts of `w` bytes. -/
def retrieveCalc (w : ℕ) : Retrieved × Cursor × Mem :=
  let (src, c) := c.fread (frame.read 64 (sizeofInt + w * 3 + sizeofUint64))
  (.returned 0, c, (m.write calcLeft (src.take w)).write (calcRight w) ((src.drop w).take w))

/-- The loop that copies `n` items of `w` bytes into the request buffer, from item `i` on. -/
def copyItems (w : ℕ) : List UInt8 → ℕ → ℕ → Mem → Mem
  | _, _, 0, m => m
  | src, i, n + 1, m =>
    copyItems w (src.drop w) (i + 1) n (m.write (bulkItems + w * i) (src.take w))

/-- The bulk sum of ciphertexts of `w` bytes. The second read goes over the first one. -/
def retrieveBulk (w : ℕ) : Retrieved × Cursor × Mem :=
  let (src, c) := c.fread (frame.read 64 (sizeofInt * 2 + w + sizeofUint64))
  let m := m.write Layout.bulkSize (src.take 4)
  let n := m.int Layout.bulkSize
  if n < 0 ∨ bufferSize < bulkItems + n.toNat * w then (.fault, c, m)
  else
    let (src, c) := c.fread ((frame.write 64 src).read 64 (n.toNat * w))
    (.returned 0, c, copyItems w src 0 n.toNat m)

/-- The year extraction. -/
def retrieveYear : Retrieved × Cursor × Mem :=
  let (src, c) := c.fread
    (frame.read 64 (sizeofInt + encTimestampLength + encInt32Length + sizeofUint64))
  (.returned 0, c, m.write yearIn (src.take encTimestampLength))

/-- Text comparison and `LIKE`. -/
def retrieveStrCmp : Retrieved × Cursor × Mem :=
  let (leftLength, c) := c.fread (frame.read 8 4)
  let (rightLength, c) := c.fread (frame.read 12 4)
  let l := bytesInt leftLength
  let r := bytesInt rightLength
  if l < 0 ∨ r < 0 ∨ bufferSize < l.toNat + r.toNat + sizeofInt * 2 + sizeofUint64 ∨
      bufferSize < cmpLeft + l.toNat ∨ bufferSize < cmpRight sizeofEncStr + r.toNat then
    (.fault, c, m)
  else
    let (src, c) := c.fread (frame.read 64 (l.toNat + r.toNat + sizeofInt * 2 + sizeofUint64))
    (.returned 0, c, (m.write cmpLeft (src.take l.toNat)).write (cmpRight sizeofEncStr)
      ((src.drop l.toNat).take r.toNat))

/-- The substring. -/
def retrieveSubstring : Retrieved × Cursor × Mem :=
  let (strLength, c) := c.fread (frame.read 8 4)
  let (resultLength, c) := c.fread (frame.read 12 4)
  let s := bytesInt strLength
  let r := bytesInt resultLength
  if s < 0 ∨ r < 0 ∨
      bufferSize < s.toNat + r.toNat + sizeofInt + encInt32Length * 2 + sizeofUint64 ∨
      bufferSize < subStr + s.toNat then (.fault, c, m)
  else
    let (src, c) := c.fread (frame.read 64
      (s.toNat + r.toNat + sizeofInt + encInt32Length * 2 + sizeofUint64))
    (.returned 0, c, ((m.write subStr (src.take s.toNat)).write subStart
      ((src.drop s.toNat).take encInt32Length)).write subLength
      ((src.drop (s.toNat + encInt32Length)).take encInt32Length))

/-- The concatenation. -/
def retrieveConcat : Retrieved × Cursor × Mem :=
  let (leftLength, c) := c.fread (frame.read 8 4)
  let (rightLength, c) := c.fread (frame.read 12 4)
  let (resLength, c) := c.fread (frame.read 16 4)
  let l := bytesInt leftLength
  let r := bytesInt rightLength
  let n := bytesInt resLength
  if l < 0 ∨ r < 0 ∨ n < 0 ∨
      bufferSize < sizeofInt + l.toNat + r.toNat + n.toNat + sizeofUint64 ∨
      bufferSize < calcLeft + l.toNat ∨ bufferSize < calcRight sizeofEncStr + r.toNat then
    (.fault, c, m)
  else
    let (src, c) := c.fread (frame.read 64
      (sizeofInt + l.toNat + r.toNat + n.toNat + sizeofUint64))
    (.returned 0, c, (m.write calcLeft (src.take l.toNat)).write (calcRight sizeofEncStr)
      ((src.drop l.toNat).take r.toNat))

/-- The switch on the opcode. -/
def retrieveBranch : Option Cmd → Retrieved × Cursor × Mem
  | some .intCmp => retrieveCmp frame c m encInt32Length
  | some .intSumBulk => retrieveBulk frame c m encInt32Length
  | some .intPlus | some .intMinus | some .intMult | some .intDiv | some .intPow
  | some .intMod => retrieveCalc frame c m encInt32Length
  | some .floatPlus | some .floatMinus | some .floatMult | some .floatDiv | some .floatPow
  | some .floatMod => retrieveCalc frame c m encFloat4Length
  | some .floatCmp => retrieveCmp frame c m encFloat4Length
  | some .floatSumBulk => retrieveBulk frame c m encFloat4Length
  | some .stringLike | some .stringCmp => retrieveStrCmp frame c m
  | some .stringSubstring => retrieveSubstring frame c m
  | some .stringConcat => retrieveConcat frame c m
  | some .timestampCmp => retrieveCmp frame c m encTimestampLength
  | some .timestampExtractYear => retrieveYear frame c m
  | _ => (.exited, c, m)

/-- `retrieve_request_from_file`. -/
def retrieve : Retrieved × Cursor × Mem :=
  let bytes := (c.rest.take 4).length
  let (opBytes, c) := c.fread (frame.read 0 4)
  let op := bytesInt opBytes
  if bytes < 1 then (.returned (-1), c, m)
  else if op = 0 then (.returned (-2), c, m)
  else retrieveBranch frame c (m.setInt reqType op) (Cmd.ofCode op)

end Reader

/-! ## The branches on the bytes of a record -/

section Branches

variable {frame : Mem} {c : Cursor} {m : Mem} {tl left right rest : List UInt8}

theorem retrieve_of_rest {k : Cmd} (hc : c.rest = intBytes k.code ++ tl) :
    retrieve frame c m =
      retrieveBranch frame (c.advance 4) (m.setInt reqType k.code) (some k) := by
  have hop := Replayer.fread_int_of_rest frame 0 hc (length_intBytes _)
  have hbytes : ¬ (c.rest.take 4).length < 1 := by
    rw [hc, List.length_take, List.length_append, length_intBytes]
    omega
  simp only [retrieve, hop, if_neg hbytes, bytesInt_intBytes k.isInt_code, Cmd.ofCode_code,
    if_neg k.code_pos.ne']

theorem advance_opcode (v : ℤ) (bs : List UInt8) :
    (c.advance 4).advance bs.length = c.advance (intBytes v ++ bs).length := by
  rw [Cursor.advance_advance, List.length_append, length_intBytes]

/-- A read of the next bytes, cut after a first and a second piece. -/
theorem fread_pieces (frame : Mem) {n l r : ℕ}
    (hc : c.rest = left ++ (right ++ rest) ++ tl)
    (hn : (left ++ (right ++ rest)).length = n) (hl : left.length = l) (hr : right.length = r) :
    c.fread (frame.read 64 n) = (left ++ (right ++ rest), c.advance n) ∧
      (left ++ (right ++ rest)).take l = left ∧
      ((left ++ (right ++ rest)).drop l).take r = right := by
  subst hl hr
  refine ⟨?_, List.take_left, ?_⟩
  · rw [Cursor.fread_of_rest hc (by rw [Mem.length_read, hn]), hn]
  · rw [List.drop_left, List.take_left]

theorem retrieveCmp_of_rest {w : ℕ} (hl : left.length = w) (hr : right.length = w)
    (hrest : rest.length = 16) (hc : c.rest = left ++ (right ++ rest) ++ tl) :
    retrieveCmp frame c m w = (.returned 0, c.advance (left ++ (right ++ rest)).length,
      (m.write cmpLeft left).write (cmpRight w) right) := by
  have hlen : (left ++ (right ++ rest)).length = sizeofInt * 2 + w * 2 + sizeofUint64 := by
    simp [hl, hr, hrest]
    omega
  obtain ⟨hread, htl, htr⟩ := fread_pieces frame hc hlen hl hr
  simp only [retrieveCmp, hread, htl, htr, hlen]

theorem retrieveCalc_of_rest {w : ℕ} (hl : left.length = w) (hr : right.length = w)
    (hrest : rest.length = w + 12) (hc : c.rest = left ++ (right ++ rest) ++ tl) :
    retrieveCalc frame c m w = (.returned 0, c.advance (left ++ (right ++ rest)).length,
      (m.write calcLeft left).write (calcRight w) right) := by
  have hlen : (left ++ (right ++ rest)).length = sizeofInt + w * 3 + sizeofUint64 := by
    simp [hl, hr, hrest]
    omega
  obtain ⟨hread, htl, htr⟩ := fread_pieces frame hc hlen hl hr
  simp only [retrieveCalc, hread, htl, htr, hlen]

theorem retrieveYear_of_rest (hl : left.length = encTimestampLength) (hr : right.length = 32)
    (hrest : rest.length = 12) (hc : c.rest = left ++ (right ++ rest) ++ tl) :
    retrieveYear frame c m = (.returned 0, c.advance (left ++ (right ++ rest)).length,
      m.write yearIn left) := by
  have hlen : (left ++ (right ++ rest)).length =
      sizeofInt + encTimestampLength + encInt32Length + sizeofUint64 := by
    simp [hl, hr, hrest]
  obtain ⟨hread, htl, -⟩ := fread_pieces frame hc hlen hl hr
  simp only [retrieveYear, hread, htl, hlen]

/-- The loop over the items copies them all. -/
theorem copyItems_flatten {w : ℕ} {items : List (List UInt8)} (hw : ∀ x ∈ items, x.length = w)
    (i : ℕ) : copyItems w items.flatten i items.length m =
      m.write (bulkItems + w * i) items.flatten := by
  induction items generalizing i m with
  | nil => simp [copyItems]
  | cons x items ih =>
    have hx := hw x List.mem_cons_self
    rw [List.length_cons, copyItems, List.flatten_cons, List.drop_left' hx, List.take_left' hx,
      ih (fun y hy => hw y (List.mem_cons_of_mem _ hy)), ← Mem.write_write, hx, Nat.mul_succ,
      Nat.add_assoc]

theorem retrieveBulk_of_rest {w : ℕ} {items : List (List UInt8)}
    (hw : ∀ x ∈ items, x.length = w) (hs : left.length = 4) (hn : bytesInt left = items.length)
    (hr : right.length = w) (hrest : rest.length = 12)
    (hle : bulkItems + items.length * w ≤ bufferSize)
    (hc : c.rest = left ++ (right ++ rest) ++ (items.flatten ++ tl)) :
    retrieveBulk frame c m w = (.returned 0,
      c.advance ((left ++ (right ++ rest)).length + items.flatten.length),
      (m.write Layout.bulkSize left).write bulkItems items.flatten) := by
  have hlen : (left ++ (right ++ rest)).length = sizeofInt * 2 + w + sizeofUint64 := by
    simp [hs, hr, hrest]
    omega
  obtain ⟨hread, htl, -⟩ := fread_pieces frame hc hlen hs hr
  have hint : (m.write Layout.bulkSize left).int Layout.bulkSize = items.length := by
    rw [Mem.int, Mem.read_write_of_length _ _ _ _ hs, hn]
  have hflat := length_flatten_of_forall hw
  have hrest' := Cursor.rest_advance hc
  rw [hlen] at hrest'
  simp only [retrieveBulk, hread, htl, hint, Int.toNat_natCast]
  rw [if_neg (by omega), Cursor.fread_of_rest hrest' (by rw [Mem.length_read, hflat]),
    copyItems_flatten hw, Cursor.advance_advance, hlen]
  rfl

/-! The text branches read the lengths first. -/

theorem bytesInt_of_le {l : ℕ} (h : l ≤ sizeofEncStr) : bytesInt (intBytes l) = l := by
  simp only [sizeofEncStr, encStringLength, stringLength, ivSize, tagSize] at h
  exact bytesInt_intBytes ⟨by omega, by omega⟩

theorem retrieveStrCmp_of_rest {l r : ℕ} (hl : left.length = l) (hr : right.length = r)
    (hle : l ≤ sizeofEncStr) (hre : r ≤ sizeofEncStr) (hrest : rest.length = 16)
    (hc : c.rest = intBytes l ++ (intBytes r ++ (left ++ (right ++ rest) ++ tl))) :
    retrieveStrCmp frame c m = (.returned 0, c.advance (8 + (left ++ (right ++ rest)).length),
      (m.write cmpLeft left).write (cmpRight sizeofEncStr) right) := by
  obtain ⟨h₁, h₂, hc₂⟩ := Replayer.fread_lengths_of_rest frame hc
  have hlen : (left ++ (right ++ rest)).length = l + r + sizeofInt * 2 + sizeofUint64 := by
    simp [hl, hr, hrest]
    omega
  obtain ⟨hread, htl, htr⟩ := fread_pieces frame hc₂ hlen hl hr
  simp only [retrieveStrCmp, h₁, h₂, bytesInt_of_le hle, bytesInt_of_le hre, Int.toNat_natCast]
  simp only [sizeofEncStr, encStringLength, stringLength, ivSize, tagSize] at hle hre
  rw [if_neg (by simp [bufferSize]; omega), hread]
  simp only [htl, htr, hlen, Cursor.advance_advance]

theorem retrieveSubstring_of_rest {s r : ℕ} {start length : List UInt8} (hs : left.length = s)
    (hst : start.length = encInt32Length) (hle : length.length = encInt32Length)
    (hse : s ≤ sizeofEncStr) (hre : r ≤ sizeofEncStr) (hrest : rest.length = r + 12)
    (hc : c.rest = intBytes s ++ (intBytes r ++ (left ++ (start ++ (length ++ rest)) ++ tl))) :
    retrieveSubstring frame c m =
      (.returned 0, c.advance (8 + (left ++ (start ++ (length ++ rest))).length),
        ((m.write subStr left).write subStart start).write subLength length) := by
  obtain ⟨h₁, h₂, hc₂⟩ := Replayer.fread_lengths_of_rest frame hc
  have hlen : (left ++ (start ++ (length ++ rest))).length =
      s + r + sizeofInt + encInt32Length * 2 + sizeofUint64 := by
    simp [hs, hst, hle, hrest]
    omega
  obtain ⟨hread, htl, htr⟩ := fread_pieces frame hc₂ hlen hs hst
  have hlength : ((left ++ (start ++ (length ++ rest))).drop (s + encInt32Length)).take
      encInt32Length = length := by
    rw [← List.drop_drop, List.drop_left' hs, List.drop_left' hst, List.take_left' hle]
  simp only [retrieveSubstring, h₁, h₂, bytesInt_of_le hse, bytesInt_of_le hre, Int.toNat_natCast]
  simp only [sizeofEncStr, encStringLength, stringLength, ivSize, tagSize] at hse hre
  rw [if_neg (by simp [bufferSize]; omega), hread]
  simp only [htl, htr, hlength, hlen, Cursor.advance_advance]

theorem retrieveConcat_of_rest {l r n : ℕ} (hl : left.length = l) (hr : right.length = r)
    (hle : l ≤ sizeofEncStr) (hre : r ≤ sizeofEncStr) (hne : n ≤ sizeofEncStr)
    (hrest : rest.length = n + 12)
    (hc : c.rest = intBytes l ++ (intBytes r ++ (intBytes n ++
      (left ++ (right ++ rest) ++ tl)))) :
    retrieveConcat frame c m = (.returned 0, c.advance (12 + (left ++ (right ++ rest)).length),
      (m.write calcLeft left).write (calcRight sizeofEncStr) right) := by
  obtain ⟨h₁, h₂, hc₂⟩ := Replayer.fread_lengths_of_rest frame hc
  have h₃ := Replayer.fread_int_of_rest frame 16 hc₂ (length_intBytes n)
  have hc₃ := Cursor.rest_advance_int hc₂
  rw [Cursor.advance_advance] at hc₃
  have hlen : (left ++ (right ++ rest)).length = sizeofInt + l + r + n + sizeofUint64 := by
    simp [hl, hr, hrest]
    omega
  obtain ⟨hread, htl, htr⟩ := fread_pieces frame hc₃ hlen hl hr
  simp only [retrieveConcat, h₁, h₂, h₃, bytesInt_of_le hle, bytesInt_of_le hre,
    bytesInt_of_le hne, Int.toNat_natCast, Cursor.advance_advance, Nat.reduceAdd]
  simp only [sizeofEncStr, encStringLength, stringLength, ivSize, tagSize] at hle hre hne
  rw [if_neg (by simp [bufferSize]; omega), hread]
  simp only [htl, htr, hlen, Cursor.advance_advance]

end Branches

/-! ## The reader on a record -/

section Records

variable {frame : Mem} {c : Cursor} {m m' : Mem} {tl : List UInt8}
  {timestamp : Bytes sizeofUint64}

theorem retrieve_cmp {f : Fam} {left right : Bytes f.size}
    (h : (Request.cmp f left right).In m) (hc : c.rest = Recorder.encoding m timestamp ++ tl) :
    retrieve frame c m' = (.returned 0, c.advance (Recorder.encoding m timestamp).length,
      (Request.cmp f left right).serializeTo m') := by
  rw [(Recorder.encoding_cmp h).2] at hc ⊢
  rw [List.append_assoc] at hc
  have hrest := Cursor.rest_advance_int hc
  have hbranch : ∀ c m,
    retrieveBranch frame c m (some f.cmpCmd) = retrieveCmp frame c m f.size := by
    cases f <;> exact fun _ _ => rfl
  rw [retrieve_of_rest hc, hbranch, retrieveCmp_of_rest left.size right.size
    (by simp [timestamp.size]) hrest, advance_opcode f.cmpCmd.code]
  rfl

theorem retrieve_calc {n : Num} {op : CalcOp} {left right : Bytes n.size}
    (h : (Request.calcNum n op left right).In m)
    (hc : c.rest = Recorder.encoding m timestamp ++ tl) :
    retrieve frame c m' = (.returned 0, c.advance (Recorder.encoding m timestamp).length,
      ((m'.setInt reqType (n.calcCmd op).code).write calcLeft left.bytes).write
        (calcRight n.size) right.bytes) := by
  rw [(Recorder.encoding_calc h).2] at hc ⊢
  rw [List.append_assoc] at hc
  have hrest := Cursor.rest_advance_int hc
  have hbranch : ∀ c m, retrieveBranch frame c m (some (n.calcCmd op)) =
      retrieveCalc frame c m n.size := by
    cases n <;> cases op <;> exact fun _ _ => rfl
  rw [retrieve_of_rest hc, hbranch, retrieveCalc_of_rest left.size right.size
    (by simp [timestamp.size]) hrest, advance_opcode (n.calcCmd op).code]
  rfl

theorem retrieve_bulk {n : Num} {items : List (Bytes n.size)}
    {hn : items.length ≤ HEDB.bulkSize} (h : (Request.bulk n items hn).In m)
    (hc : c.rest = Recorder.encoding m timestamp ++ tl) :
    retrieve frame c m' = (.returned 0, c.advance (Recorder.encoding m timestamp).length,
      (Request.bulk n items hn).serializeTo m') := by
  rw [(Recorder.encoding_bulk h).2] at hc ⊢
  rw [List.append_assoc, List.append_assoc] at hc
  have hrest := Cursor.rest_advance_int hc
  have hbranch : ∀ c m, retrieveBranch frame c m (some n.bulkCmd) =
      retrieveBulk frame c m n.size := by
    cases n <;> exact fun _ _ => rfl
  have hsize : bytesInt (intBytes items.length) = (items.map Bytes.bytes).length := by
    rw [List.length_map, Request.bytesInt_length hn]
  have hitems : ∀ x ∈ items.map Bytes.bytes, x.length = n.size := by
    intro x hx
    obtain ⟨y, -, rfl⟩ := List.mem_map.mp hx
    exact y.size
  rw [retrieve_of_rest hc, hbranch, retrieveBulk_of_rest hitems (length_intBytes _) hsize
    (m.length_read _ _) (by simp [timestamp.size]) (by simp [bufferSize] at hn ⊢; omega) hrest,
    ← List.length_append, advance_opcode n.bulkCmd.code, ← List.flatMap_def]
  rfl

theorem retrieve_year {input : Bytes encTimestampLength} (h : (Request.extractYear input).In m)
    (hc : c.rest = Recorder.encoding m timestamp ++ tl) :
    retrieve frame c m' = (.returned 0, c.advance (Recorder.encoding m timestamp).length,
      (Request.extractYear input).serializeTo m') := by
  rw [(Recorder.encoding_year h).2] at hc ⊢
  rw [List.append_assoc] at hc
  have hrest := Cursor.rest_advance_int hc
  rw [retrieve_of_rest hc, retrieveBranch, retrieveYear_of_rest input.size (m.length_read _ _)
    (by simp [timestamp.size]) hrest, advance_opcode Cmd.timestampExtractYear.code]
  rfl

theorem retrieve_strCmp {q : Request} {left right : EncStr}
    (hq : q = .strCmp left right ∨ q = .strLike left right) (h : q.In m)
    (hc : c.rest = Recorder.encoding m timestamp ++ tl) :
    retrieve frame c m' = (.returned 0, c.advance (Recorder.encoding m timestamp).length,
      ((m'.setInt reqType q.cmd.code).write cmpLeft (m.read cmpLeft (8 + left.len))).write
        (cmpRight sizeofEncStr) (m.read (cmpRight sizeofEncStr) (8 + right.len))) := by
  have hl : left.len ≤ 284 := left.len_le
  have hr : right.len ≤ 284 := right.len_le
  rw [(Recorder.encoding_strCmp hq h).2] at hc ⊢
  simp only [List.append_assoc] at hc
  have hrest := Cursor.rest_advance_int hc
  have hbranch : ∀ c m, retrieveBranch frame c m (some q.cmd) = retrieveStrCmp frame c m := by
    obtain rfl | rfl := hq <;> exact fun _ _ => rfl
  rw [retrieve_of_rest hc, hbranch, retrieveStrCmp_of_rest (m.length_read _ _) (m.length_read _ _)
    (by simp; omega) (by simp; omega) (by simp [timestamp.size]) hrest]
  simp only [Cursor.advance_advance, List.flatten_cons, List.length_append, length_intBytes,
    ← Nat.add_assoc, Nat.reduceAdd]

theorem retrieve_substring {str : EncStr} {start length : Bytes encInt32Length}
    (h : (Request.substring str start length).In m)
    (hfit : m.uint (subRes + strLen) ≤ encStringLength)
    (hc : c.rest = Recorder.encoding m timestamp ++ tl) :
    retrieve frame c m' = (.returned 0, c.advance (Recorder.encoding m timestamp).length,
      (((m'.setInt reqType Cmd.stringSubstring.code).write subStr
        (m.read subStr (8 + str.len))).write subStart start.bytes).write subLength
          length.bytes) := by
  have hs : str.len ≤ 284 := str.len_le
  have hsize := Replayer.sizeAt_of_le hfit
  simp only [encStringLength, stringLength, ivSize, tagSize] at hfit
  rw [Recorder.encoding_substring h (by omega)] at hc ⊢
  simp only [List.append_assoc, hsize] at hc
  have hrest := Cursor.rest_advance_int hc
  rw [retrieve_of_rest hc, retrieveBranch, retrieveSubstring_of_rest (m.length_read _ _) start.size
    length.size (by simp; omega) (show 8 + m.uint (subRes + strLen) ≤ _ by simp at hfit ⊢; omega)
    (by simp [timestamp.size]; omega) hrest]
  simp only [Cursor.advance_advance, List.flatten_cons, List.length_append, length_intBytes,
    ← Nat.add_assoc, Nat.reduceAdd, hsize]

theorem retrieve_concat {left right : EncStr} (h : (Request.concat left right).In m)
    (hfit : m.uint (calcRes sizeofEncStr + strLen) ≤ encStringLength)
    (hc : c.rest = Recorder.encoding m timestamp ++ tl) :
    retrieve frame c m' = (.returned 0, c.advance (Recorder.encoding m timestamp).length,
      ((m'.setInt reqType Cmd.stringConcat.code).write calcLeft
        (m.read calcLeft (8 + left.len))).write (calcRight sizeofEncStr)
          (m.read (calcRight sizeofEncStr) (8 + right.len))) := by
  have hl : left.len ≤ 284 := left.len_le
  have hr : right.len ≤ 284 := right.len_le
  have hsize := Replayer.sizeAt_of_le hfit
  simp only [encStringLength, stringLength, ivSize, tagSize] at hfit
  rw [Recorder.encoding_concat h (by omega)] at hc ⊢
  simp only [List.append_assoc, hsize] at hc
  have hrest := Cursor.rest_advance_int hc
  rw [retrieve_of_rest hc, retrieveBranch, retrieveConcat_of_rest (m.length_read _ _)
    (m.length_read _ _) (by simp; omega) (by simp; omega)
    (show 8 + m.uint (calcRes sizeofEncStr + strLen) ≤ _ by simp at hfit ⊢; omega)
    (by simp [timestamp.size]; omega) hrest]
  simp only [Cursor.advance_advance, List.flatten_cons, List.length_append, length_intBytes,
    ← Nat.add_assoc, Nat.reduceAdd, hsize]

end Records

/-! ## Whole logs -/

/-- A call yields the opcode and the operands of the recorded request. -/
structure Yields (k : Completed) (out : Retrieved × Mem) : Prop where
  ret : out.1 = .returned 0
  reqType : out.2.int Layout.reqType = k.req.cmd.code
  operands : operandsAt out.2 k.req.cmd = operandsAt k.buf k.req.cmd

section Logs

variable {k : Completed} {m : Mem}

/-- The operands are written after the header. -/
theorem int_reqType_write {o : ℕ} (h : 8 ≤ o) (bs : List UInt8) :
    (m.write o bs).int reqType = m.int reqType := by
  rw [Mem.int, Mem.int, Mem.read_write_of_disjoint]
  simp
  omega

theorem yields_serializeTo (hk : k.req.FixedWidth) :
    Yields k (.returned 0, k.req.serializeTo m) where
  ret := rfl
  reqType := (k.req.in_serializeTo m).reqType
  operands := Request.operandsAt_of_in hk k.holds (k.req.in_serializeTo m)

/-- Two `EncStr`s that are copied next to each other. -/
theorem encStrAt_write_write (m buf : Mem) {o p : ℕ} {s t : EncStr}
    (hs : Recorder.sizeAt buf o = 8 + s.len) (ht : Recorder.sizeAt buf p = 8 + t.len)
    (hop : o + sizeofEncStr ≤ p) :
    encStrAt ((m.write o (buf.read o (8 + s.len))).write p (buf.read p (8 + t.len))) o =
        encStrAt buf o ∧
      encStrAt ((m.write o (buf.read o (8 + s.len))).write p (buf.read p (8 + t.len))) p =
        encStrAt buf p := by
  have hlen : s.len ≤ 284 := s.len_le
  simp only [sizeofEncStr, encStringLength, stringLength, ivSize, tagSize] at hop
  constructor
  · apply Replayer.encStrAt_of_read hs
    rw [Mem.read_write_of_disjoint _ (by omega),
      Mem.read_write_of_length _ _ _ _ (buf.length_read _ _)]
  · exact Replayer.encStrAt_of_read ht (Mem.read_write_of_length _ _ _ _ (buf.length_read _ _))

theorem yields_strCmp {left right : EncStr}
    (hq : k.req = .strCmp left right ∨ k.req = .strLike left right) :
    Yields k (.returned 0, ((m.setInt Layout.reqType k.req.cmd.code).write cmpLeft
      (k.buf.read cmpLeft (8 + left.len))).write (cmpRight sizeofEncStr)
        (k.buf.read (cmpRight sizeofEncStr) (8 + right.len))) := by
  have hbody : k.req.body = copyEnc cmpLeft left ++ copyEnc (cmpRight sizeofEncStr) right := by
    rcases hq with hq | hq <;> rw [hq] <;> rfl
  have hops : ∀ m, operandsAt m k.req.cmd =
      [encStrAt m cmpLeft, encStrAt m (cmpRight sizeofEncStr)] := by
    rcases hq with hq | hq <;> rw [hq] <;> exact fun _ => rfl
  obtain ⟨hl, hr⟩ := encStrAt_write_write (m.setInt Layout.reqType k.req.cmd.code) k.buf
    (k.holds.sizeAt (o := cmpLeft) (s := left) (by rw [hbody]; simp))
    (k.holds.sizeAt (o := cmpRight sizeofEncStr) (s := right) (by rw [hbody]; simp)) (by simp)
  refine ⟨rfl, ?_, ?_⟩
  · rw [int_reqType_write (by simp), int_reqType_write (by simp),
      m.int_setInt _ k.req.cmd.isInt_code]
  · rw [hops, hops, hl, hr]

/-- **On the record of a logged request the reader yields its opcode and operands, and moves exactly
past it.** -/
theorem retrieve_record (frame m' : Mem) {c : Cursor} {tl : List UInt8} (hk : k.req.Logged)
    (hfit : k.req.ResultFits k.buf) (hc : c.rest = k.encoding ++ tl) :
    ∃ m'', retrieve frame c m' = (.returned 0, c.advance k.encoding.length, m'') ∧
      Yields k (.returned 0, m'') := by
  have htype (m : Mem) {v : Cmd} : (m.setInt Layout.reqType v.code).int Layout.reqType = v.code :=
    m.int_setInt _ v.isInt_code
  rcases k with ⟨q, buf, timestamp, holds⟩
  cases q with
  | cmp f left right => exact ⟨_, retrieve_cmp holds hc, yields_serializeTo trivial⟩
  | calcNum n op left right =>
    obtain ⟨hl, hr⟩ := holds.calcNum
    refine ⟨_, retrieve_calc holds hc, rfl, ?_, ?_⟩
    · rw [int_reqType_write (by simp), int_reqType_write (by simp), htype]
      rfl
    · simp only [Request.cmd, operandsAt_calcCmd, calcOperands, hl, hr]
      rw [Mem.read_write_of_disjoint _ (by simp), Mem.read_write_of_length _ _ _ _ left.size,
        Mem.read_write_of_length _ _ _ _ right.size]
  | bulk n items hn => exact ⟨_, retrieve_bulk holds hc, yields_serializeTo trivial⟩
  | extractYear input => exact ⟨_, retrieve_year holds hc, yields_serializeTo trivial⟩
  | strCmp left right => exact ⟨_, retrieve_strCmp (.inl rfl) holds hc, yields_strCmp (.inl rfl)⟩
  | strLike left right => exact ⟨_, retrieve_strCmp (.inr rfl) holds hc, yields_strCmp (.inr rfl)⟩
  | substring str start length =>
    have hlen : str.len ≤ 284 := str.len_le
    obtain ⟨hst, hle⟩ := holds.substring
    refine ⟨_, retrieve_substring holds hfit hc, rfl, ?_, ?_⟩
    · rw [int_reqType_write (by simp), int_reqType_write (by simp), int_reqType_write (by simp),
        htype]
      rfl
    · simp only [Request.cmd, operandsAt, hst, hle]
      rw [Replayer.encStrAt_of_read (s := str) (holds.sizeAt (by simp [Request.body])),
        Mem.read_write_of_disjoint _ (by simp), Mem.read_write_of_length _ _ _ _ start.size,
        Mem.read_write_of_length _ _ _ _ length.size]
      rw [Mem.read_write_of_disjoint _ (by simp; omega),
        Mem.read_write_of_disjoint _ (by simp; omega),
        Mem.read_write_of_length _ _ _ _ (buf.length_read _ _)]
  | concat left right =>
    obtain ⟨hl, hr⟩ := encStrAt_write_write (m'.setInt Layout.reqType Cmd.stringConcat.code) buf
      (holds.sizeAt (o := calcLeft) (s := left) (by simp [Request.body]))
      (holds.sizeAt (o := calcRight sizeofEncStr) (s := right) (by simp [Request.body])) (by simp)
    refine ⟨_, retrieve_concat holds hfit hc, rfl, ?_, ?_⟩
    · rw [int_reqType_write (by simp), int_reqType_write (by simp), htype]
      rfl
    · simp only [Request.cmd, operandsAt]
      rw [hl, hr]
  | enc | dec | strEnc | strDec | evalExpr => exact hk.elim

/-- One call of the reader on a stack frame: it moves the cursor and changes the request buffer. -/
def call (frame : Mem) (s : Cursor × Mem) : (Retrieved × Mem) × (Cursor × Mem) :=
  (((retrieve frame s.1 s.2).1, (retrieve frame s.1 s.2).2.2), (retrieve frame s.1 s.2).2)

/-- One call reads one record. -/
theorem reads_retrieve : ReadsRecord call Completed.encoding
    (fun k _ => k.req.Logged ∧ k.req.ResultFits k.buf) Yields (fun s bs => s.1.rest = bs) := by
  rintro k frame ⟨c, m⟩ tl ⟨hk, hfit⟩ hc
  obtain ⟨m'', hret, hyields⟩ := retrieve_record frame m hk hfit hc
  rw [call, hret]
  exact ⟨hyields, Cursor.rest_advance hc⟩

/-- **The anonymizer's log reader agrees with the recorder**: on the log of a run of logged requests
it returns 0 for each record in turn and yields the opcode and the operands that were recorded. -/
theorem retrieve_log (ks : List Completed)
    (hks : ∀ k ∈ ks, k.req.Logged ∧ k.req.ResultFits k.buf) (frames : List Mem)
    (hframes : frames.length = ks.length) (m : Mem) :
    ∃ R, recordRun [] ks = some R ∧
      List.Forall₂ Yields ks (readAll call frames (⟨R.file, 0⟩, m)).1 := by
  obtain ⟨R, hR⟩ := recordRun_isSome [] ks hks
  obtain ⟨tl, hfile⟩ := file_of_log hR
  have hall : List.Forall₂
    (fun k (_ : Mem) => k.req.Logged ∧ k.req.ResultFits k.buf) ks frames := by
    refine List.forall₂_iff_zip.mpr ⟨hframes.symm, fun {k i} hki => ?_⟩
    exact hks k (List.of_mem_zip hki).1
  have hrest : (Cursor.mk R.file 0).rest = ks.flatMap Completed.encoding ++ tl := hfile
  exact ⟨R, hR, (readAll_spec reads_retrieve hall hrest).1⟩

theorem retrieve_log_sampleRun :
    (∀ k ∈ Replayer.sampleRun, k.req.Logged ∧ k.req.ResultFits k.buf) ∧
    ∃ R, recordRun [] Replayer.sampleRun = some R ∧
      List.Forall₂ Yields Replayer.sampleRun
        (readAll call [Mem.zero, Mem.zero] (⟨R.file, 0⟩, Mem.zero)).1 := by
  have hks : ∀ k ∈ Replayer.sampleRun, k.req.Logged ∧ k.req.ResultFits k.buf := by
    simp [Replayer.sampleRun, Replayer.samplePlus, Replayer.sampleCmp, Request.Logged,
      Request.ResultFits]
  exact ⟨hks, retrieve_log Replayer.sampleRun hks [Mem.zero, Mem.zero] rfl Mem.zero⟩

end Logs

end Desenitizer

end HEDB
