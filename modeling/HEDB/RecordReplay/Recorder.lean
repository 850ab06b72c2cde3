import HEDB.Foundations.Files
import HEDB.Types.Request

/-!
# The recorder

`Recorder::record` appends one record for a completed request to a log file that is mapped into
memory and grows by `DATA_LENGTH` bytes at a time. `spans` lists, for the request in the buffer,
the spans that `record` reserves with `get_write_buffer`, each with its length as the code computes
it and with the pieces that are copied into it; `record` reserves and fills them in order.

The spans are filled exactly (`spans_exact`), so the recorder is a plain append log: a record
extends the written part of the file by its encoding and keeps the cursor inside the mapping
(`record_of_some`, and `recordAll_of_some` for a run), and it is written whenever its spans are no
longer than an extension of the file (`record_isSome`).
-/

namespace HEDB

open Layout

/-! ## The log file -/

/-- `Recorder::DATA_LENGTH`. -/
def dataLength : ℕ := 16 * 1024 * 1024

/-- The recorder's file. The mapping is shared, so it shows the bytes of the file. -/
structure Recorder where
  file : List UInt8
  fileLength : ℕ
  fileCursor : ℕ

namespace Recorder

/-- `update_write_fd` on a path whose file holds `file` (nothing, for a new one): the file is opened
without truncation. -/
def updateWriteFd (file : List UInt8) : Recorder := ⟨file, 0, 0⟩

/-- `get_write_buffer`: the offset of a new span of `length` bytes. -/
def getWriteBuffer (r : Recorder) (length : ℕ) : ℕ × Recorder :=
  let r := if r.fileLength < r.fileCursor + length then
      { r with
        file := ftruncate r.file (r.fileLength + dataLength)
        fileLength := r.fileLength + dataLength }
    else r
  (r.fileCursor, { r with fileCursor := r.fileCursor + length })

/-- A copy into the mapping, which ends at `file_length`. -/
def store (r : Recorder) (dst : ℕ) (bs : List UInt8) : Option Recorder :=
  if dst + bs.length ≤ r.fileLength then some { r with file := pwrite r.file dst bs } else none

/-- `rrprintf` in record mode: the buffers, one after the other. -/
def rrprintf (args : List (List UInt8)) : List UInt8 := args.flatten

/-- Reserve a span and fill it with `rrprintf`. -/
def put (r : Recorder) (length : ℕ) (args : List (List UInt8)) : Option Recorder :=
  let dst := r.getWriteBuffer length
  dst.2.store dst.1 (rrprintf args)

/-! ## The records -/

section Spans

variable (m : Mem) (timestamp : Bytes sizeofUint64)

/-- The record of a comparison of ciphertexts of `w` bytes. -/
def cmpSpans (w : ℕ) : List (ℕ × List (List UInt8)) :=
  [(sizeofInt * 3 + w * 2 + sizeofUint64,
    [m.read reqType 4, m.read cmpLeft w, m.read (cmpRight w) w, m.read (cmpCmp w) 4,
      m.read resp 4, timestamp.bytes])]

/-- The first `n` items of a bulk request on ciphertexts of `w` bytes. -/
def itemsAt (w n : ℕ) : List (List UInt8) :=
  (List.range n).map fun i => m.read (bulkItems + w * i) w

/-- The record of a bulk sum of ciphertexts of `w` bytes: a span for the result, and one for the
items. A negative size would reserve nearly the whole address space. -/
def bulkSpans (w : ℕ) : Option (List (ℕ × List (List UInt8))) :=
  let n := m.int Layout.bulkSize
  if n < 0 then none else
    some [(sizeofInt * 3 + w + sizeofUint64,
        [m.read reqType 4, m.read Layout.bulkSize 4, m.read (bulkRes w) w, m.read resp 4,
          timestamp.bytes]),
      (n.toNat * w, itemsAt m w n.toNat)]

/-- The record of an arithmetic operation on ciphertexts of `w` bytes. Its opcode is the `op`
field. -/
def calcSpans (w : ℕ) : List (ℕ × List (List UInt8)) :=
  [(sizeofInt * 2 + w * 3 + sizeofUint64,
    [m.read calcOp 4, m.read calcLeft w, m.read (calcRight w) w, m.read (calcRes w) w,
      m.read resp 4, timestamp.bytes])]

/-- The record of a year extraction. -/
def yearSpans : List (ℕ × List (List UInt8)) :=
  [(sizeofInt * 2 + encTimestampLength + encInt32Length + sizeofUint64,
    [m.read reqType 4, m.read yearIn encTimestampLength, m.read yearRes encInt32Length,
      m.read resp 4, timestamp.bytes])]

/-- `encstr_size` of the `EncStr` at offset `o`. -/
def sizeAt (o : ℕ) : ℤ := encstrSize (m.uint (o + strLen))

/-- The record of a text comparison or a `LIKE`. A negative length makes `memcpy` run off. -/
def strCmpSpans : Option (List (ℕ × List (List UInt8))) :=
  let leftLength := sizeAt m cmpLeft
  let rightLength := sizeAt m (cmpRight sizeofEncStr)
  if leftLength < 0 ∨ rightLength < 0 then none else
    some [((sizeofInt * 5 + leftLength + rightLength + sizeofUint64).toNat,
      [m.read reqType 4, intBytes leftLength, intBytes rightLength,
        m.read cmpLeft leftLength.toNat, m.read (cmpRight sizeofEncStr) rightLength.toNat,
        m.read (cmpCmp sizeofEncStr) 4, m.read resp 4, timestamp.bytes])]

/-- The record of a substring. -/
def substringSpans : Option (List (ℕ × List (List UInt8))) :=
  let strLength := sizeAt m subStr
  let resultLength := sizeAt m subRes
  if strLength < 0 ∨ resultLength < 0 then none else
    some [((sizeofInt * 4 + strLength + resultLength + 2 * encInt32Length + sizeofUint64).toNat,
      [m.read reqType 4, intBytes strLength, intBytes resultLength,
        m.read subStr strLength.toNat, m.read subStart encInt32Length,
        m.read subLength encInt32Length, m.read subRes resultLength.toNat, m.read resp 4,
        timestamp.bytes])]

/-- The record of a concatenation. Its opcode is the `op` field. -/
def concatSpans : Option (List (ℕ × List (List UInt8))) :=
  let leftLength := sizeAt m calcLeft
  let rightLength := sizeAt m (calcRight sizeofEncStr)
  let resLength := sizeAt m (calcRes sizeofEncStr)
  if leftLength < 0 ∨ rightLength < 0 ∨ resLength < 0 then none else
    some [((sizeofInt * 5 + leftLength + rightLength + resLength + sizeofUint64).toNat,
      [m.read calcOp 4, intBytes leftLength, intBytes rightLength, intBytes resLength,
        m.read calcLeft leftLength.toNat, m.read (calcRight sizeofEncStr) rightLength.toNat,
        m.read (calcRes sizeofEncStr) resLength.toNat, m.read resp 4, timestamp.bytes])]

/-- The spans that `record` reserves for the request in the buffer, and what it copies into them:
nothing for a request type that is not logged. -/
def spans : Option (List (ℕ × List (List UInt8))) :=
  let t := m.int reqType
  if t ≠ Cmd.floatEnc.code ∧ t ≠ Cmd.floatDec.code ∧ Cmd.floatPlus.code ≤ t ∧
      t ≤ Cmd.floatSumBulk.code then
    if t = Cmd.floatCmp.code then some (cmpSpans m timestamp encFloat4Length)
    else if t = Cmd.floatSumBulk.code then bulkSpans m timestamp encFloat4Length
    else some (calcSpans m timestamp encFloat4Length)
  else if Cmd.intPlus.code ≤ t ∧ t ≤ Cmd.intSumBulk.code ∧ t ≠ Cmd.intEnc.code ∧
      t ≠ Cmd.intDec.code then
    if t = Cmd.intCmp.code then some (cmpSpans m timestamp encInt32Length)
    else if t = Cmd.intSumBulk.code then bulkSpans m timestamp encInt32Length
    else some (calcSpans m timestamp encInt32Length)
  else if t ≠ Cmd.stringEnc.code ∧ t ≠ Cmd.stringDec.code ∧ Cmd.stringCmp.code ≤ t ∧
      t ≤ Cmd.stringLike.code then
    if t = Cmd.stringCmp.code ∨ t = Cmd.stringLike.code then strCmpSpans m timestamp
    else if t = Cmd.stringSubstring.code then substringSpans m timestamp
    else concatSpans m timestamp
  else if Cmd.timestampCmp.code ≤ t ∧ t ≤ Cmd.timestampExtractYear.code ∧
      t ≠ Cmd.timestampDec.code ∧ t ≠ Cmd.timestampEnc.code then
    if t = Cmd.timestampCmp.code then some (cmpSpans m timestamp encTimestampLength)
    else if t = Cmd.timestampExtractYear.code then some (yearSpans m timestamp)
    else some []
  else some []

end Spans

/-- `Recorder::record`, with the value of the cycle counter. `none` is an access outside the
mapping. -/
def record (r : Recorder) (m : Mem) (timestamp : Bytes sizeofUint64) : Option Recorder :=
  (spans m timestamp).bind fun ss => ss.foldlM (fun r s => r.put s.1 s.2) r

/-- Record the requests of a run, one after the other. -/
def recordAll (r : Recorder) (ms : List (Mem × Bytes sizeofUint64)) : Option Recorder :=
  ms.foldlM (fun r m => r.record m.1 m.2) r

/-! ## The recorder is an append log -/

/-- The part of the file that has been written. -/
def contents (r : Recorder) : List UInt8 := r.file.take r.fileCursor

/-- The cursor is inside the mapping, and the mapping is inside the file. -/
structure Inv (r : Recorder) : Prop where
  cursor_le : r.fileCursor ≤ r.fileLength
  length_le : r.fileLength ≤ r.file.length

/-- The bytes of the record of the request in the buffer. -/
def encoding (m : Mem) (timestamp : Bytes sizeofUint64) : List UInt8 :=
  ((spans m timestamp).getD []).flatMap fun s => rrprintf s.2

theorem inv_updateWriteFd (file : List UInt8) : (updateWriteFd file).Inv := ⟨le_rfl, Nat.zero_le _⟩

@[simp] theorem contents_updateWriteFd (file : List UInt8) : (updateWriteFd file).contents = [] :=
  rfl

/-- The file is what was written, followed by bytes that were not. -/
theorem file_eq_contents_append (r : Recorder) : r.file = r.contents ++ r.file.drop r.fileCursor :=
  (List.take_append_drop _ _).symm

theorem Inv.length_contents {r : Recorder} (h : r.Inv) : r.contents.length = r.fileCursor := by
  have := h.cursor_le.trans h.length_le
  simp [contents, this]

/-- Reserving a span extends the file at most, and keeps what was written. -/
theorem getWriteBuffer_spec {r : Recorder} (h : r.Inv) (n : ℕ) :
    (r.getWriteBuffer n).1 = r.fileCursor ∧
      (r.getWriteBuffer n).2.fileCursor = r.fileCursor + n ∧
      (r.getWriteBuffer n).2.fileLength ≤ (r.getWriteBuffer n).2.file.length ∧
      r.fileCursor ≤ (r.getWriteBuffer n).2.fileLength ∧
      (r.getWriteBuffer n).2.file.take r.fileCursor = r.contents := by
  have hc := h.cursor_le
  have hl := h.length_le
  by_cases hlt : r.fileLength < r.fileCursor + n
  · simp only [getWriteBuffer, if_pos hlt, true_and]
    refine ⟨by simp, by omega, ?_⟩
    rw [take_ftruncate (by omega) (by omega), contents]
  · simp only [getWriteBuffer, if_neg hlt, true_and]
    exact ⟨hl, hc, rfl⟩

/-- A span of at most `DATA_LENGTH` bytes lies inside the mapping. -/
theorem getWriteBuffer_le {r : Recorder} (h : r.Inv) {n : ℕ} (hn : n ≤ dataLength) :
    r.fileCursor + n ≤ (r.getWriteBuffer n).2.fileLength := by
  have hc := h.cursor_le
  simp only [getWriteBuffer]
  split_ifs with hlt
  · dsimp only
    omega
  · exact Nat.le_of_not_lt hlt

/-- **Filling a span exactly appends its bytes.** -/
theorem put_of_some {r r' : Recorder} (h : r.Inv) {n : ℕ} {args : List (List UInt8)}
    (hf : (rrprintf args).length = n) (hp : r.put n args = some r') :
    r'.Inv ∧ r'.contents = r.contents ++ rrprintf args := by
  subst hf
  obtain ⟨h₁, h₂, h₃, h₄, h₅⟩ := getWriteBuffer_spec h (rrprintf args).length
  rw [put, store, h₁] at hp
  split_ifs at hp with hle
  obtain rfl := Option.some.inj hp
  refine ⟨⟨?_, ?_⟩, ?_⟩
  · exact h₂ ▸ hle
  · rw [length_pwrite (by omega)]
    exact h₃
  · rw [contents, h₂, take_pwrite (by omega), h₅]

theorem put_isSome {r : Recorder} (h : r.Inv) {n : ℕ} {args : List (List UInt8)}
    (hf : (rrprintf args).length = n) (hn : n ≤ dataLength) : ∃ r', r.put n args = some r' := by
  have hle := getWriteBuffer_le h hn
  obtain ⟨h₁, -⟩ := getWriteBuffer_spec h n
  exact ⟨_, if_pos (by rw [h₁, hf]; exact hle)⟩

/-- The lengths that are reserved for the spans are those of the pieces copied into them. -/
def Exact (ss : List (ℕ × List (List UInt8))) : Prop := ∀ s ∈ ss, (rrprintf s.2).length = s.1

section Exact

variable {m : Mem} {timestamp : Bytes sizeofUint64} {ss : List (ℕ × List (List UInt8))}

theorem length_itemsAt (w n : ℕ) : (itemsAt m w n).flatten.length = n * w := by
  rw [length_flatten_of_forall (w := w), itemsAt, List.length_map, List.length_range]
  intro x hx
  obtain ⟨i, -, rfl⟩ := List.mem_map.mp hx
  exact m.length_read _ _

theorem cmpSpans_exact (w : ℕ) : Exact (cmpSpans m timestamp w) := by
  have hts : timestamp.bytes.length = 8 := timestamp.size
  simp only [Exact, cmpSpans, List.forall_mem_singleton, rrprintf, List.flatten_cons,
    List.flatten_nil, List.length_append, Mem.length_read, hts, List.length_nil, sizeofInt,
    sizeofUint64]
  omega

theorem calcSpans_exact (w : ℕ) : Exact (calcSpans m timestamp w) := by
  have hts : timestamp.bytes.length = 8 := timestamp.size
  simp only [Exact, calcSpans, List.forall_mem_singleton, rrprintf, List.flatten_cons,
    List.flatten_nil, List.length_append, Mem.length_read, hts, List.length_nil, sizeofInt,
    sizeofUint64]
  omega

theorem yearSpans_exact : Exact (yearSpans m timestamp) := by
  have hts : timestamp.bytes.length = 8 := timestamp.size
  simp [Exact, yearSpans, rrprintf, hts]

theorem bulkSpans_exact {w : ℕ} (hs : bulkSpans m timestamp w = some ss) : Exact ss := by
  have hts : timestamp.bytes.length = 8 := timestamp.size
  simp only [bulkSpans] at hs
  split_ifs at hs
  obtain rfl := Option.some.inj hs
  simp only [Exact, List.forall_mem_cons, rrprintf, length_itemsAt, List.flatten_cons,
    List.flatten_nil, List.length_append, Mem.length_read, hts, List.length_nil, sizeofInt,
    sizeofUint64, List.not_mem_nil, false_imp_iff, implies_true, and_true]
  omega

theorem textSpans_exact (hs : strCmpSpans m timestamp = some ss ∨
    substringSpans m timestamp = some ss ∨ concatSpans m timestamp = some ss) : Exact ss := by
  have hts : timestamp.bytes.length = 8 := timestamp.size
  simp only [strCmpSpans, substringSpans, concatSpans] at hs
  rcases hs with hs | hs | hs
  all_goals
    split_ifs at hs
    obtain rfl := Option.some.inj hs
    simp only [Exact, List.forall_mem_singleton, rrprintf, List.flatten_cons, List.flatten_nil,
      List.length_append, Mem.length_read, length_intBytes, hts, List.length_nil, sizeofInt,
      sizeofUint64, encInt32Length]
    omega

/-- **Every span is filled exactly**, whatever the buffer holds. -/
theorem spans_exact (hs : spans m timestamp = some ss) : Exact ss := by
  have hnil : Exact [] := fun s hs => absurd hs List.not_mem_nil
  simp only [spans] at hs
  split_ifs at hs
  exacts [Option.some.inj hs ▸ cmpSpans_exact _, bulkSpans_exact hs,
    Option.some.inj hs ▸ calcSpans_exact _, Option.some.inj hs ▸ cmpSpans_exact _,
    bulkSpans_exact hs, Option.some.inj hs ▸ calcSpans_exact _, textSpans_exact (.inl hs),
    textSpans_exact (.inr (.inl hs)), textSpans_exact (.inr (.inr hs)),
    Option.some.inj hs ▸ cmpSpans_exact _, Option.some.inj hs ▸ yearSpans_exact,
    Option.some.inj hs ▸ hnil, Option.some.inj hs ▸ hnil]

end Exact

/-- Filling spans one after the other appends all their bytes. -/
theorem foldlM_put_of_some {ss : List (ℕ × List (List UInt8))} (hex : Exact ss)
    {r r' : Recorder} (h : r.Inv) (hr : ss.foldlM (fun r s => r.put s.1 s.2) r = some r') :
    r'.Inv ∧ r'.contents = r.contents ++ ss.flatMap fun s => rrprintf s.2 := by
  induction ss generalizing r with
  | nil =>
    obtain rfl := Option.some.inj hr
    exact ⟨h, (List.append_nil _).symm⟩
  | cons s ss ih =>
    rw [List.foldlM_cons] at hr
    obtain ⟨r₁, hr₁, hr₂⟩ := Option.bind_eq_some_iff.mp hr
    obtain ⟨hi₁, hc₁⟩ := put_of_some h (hex s List.mem_cons_self) hr₁
    obtain ⟨hi₂, hc₂⟩ := ih (fun t ht => hex t (List.mem_cons_of_mem _ ht)) hi₁ hr₂
    exact ⟨hi₂, by rw [hc₂, hc₁, List.flatMap_cons, List.append_assoc]⟩

theorem foldlM_put_isSome {ss : List (ℕ × List (List UInt8))} (hex : Exact ss)
    (hle : ∀ s ∈ ss, s.1 ≤ dataLength) {r : Recorder} (h : r.Inv) :
    ∃ r', ss.foldlM (fun r s => r.put s.1 s.2) r = some r' := by
  induction ss generalizing r with
  | nil => exact ⟨r, rfl⟩
  | cons s ss ih =>
    have hs := hex s List.mem_cons_self
    obtain ⟨r₁, hr₁⟩ := put_isSome h hs (hle s List.mem_cons_self)
    obtain ⟨r₂, hr₂⟩ := ih (fun t ht => hex t (List.mem_cons_of_mem _ ht))
      (fun t ht => hle t (List.mem_cons_of_mem _ ht)) (put_of_some h hs hr₁).1
    refine ⟨r₂, ?_⟩
    rw [List.foldlM_cons, hr₁]
    exact hr₂

/-- **One record appends its encoding.** -/
theorem record_of_some {r r' : Recorder} (h : r.Inv) {m : Mem} {timestamp : Bytes sizeofUint64}
    (hr : r.record m timestamp = some r') :
    r'.Inv ∧ r'.contents = r.contents ++ encoding m timestamp := by
  obtain ⟨ss, hs, hr⟩ := Option.bind_eq_some_iff.mp hr
  rw [encoding, hs, Option.getD_some]
  exact foldlM_put_of_some (spans_exact hs) h hr

/-- A record whose spans are at most `DATA_LENGTH` long is written. -/
theorem record_isSome {r : Recorder} (h : r.Inv) {m : Mem} {timestamp : Bytes sizeofUint64}
    {ss : List (ℕ × List (List UInt8))} (hs : spans m timestamp = some ss)
    (hle : ∀ s ∈ ss, s.1 ≤ dataLength) : ∃ r', r.record m timestamp = some r' := by
  rw [record, hs]
  exact foldlM_put_isSome (spans_exact hs) hle h

/-- **A run of records is the concatenation of their encodings.** -/
theorem recordAll_of_some {r r' : Recorder} (h : r.Inv) {ms : List (Mem × Bytes sizeofUint64)}
    (hr : r.recordAll ms = some r') :
    r'.Inv ∧ r'.contents = r.contents ++ ms.flatMap fun m => encoding m.1 m.2 := by
  induction ms generalizing r with
  | nil =>
    obtain rfl := Option.some.inj hr
    exact ⟨h, (List.append_nil _).symm⟩
  | cons m ms ih =>
    rw [recordAll, List.foldlM_cons] at hr
    obtain ⟨r₁, hr₁, hr₂⟩ := Option.bind_eq_some_iff.mp hr
    obtain ⟨hi₁, hc₁⟩ := record_of_some h hr₁
    obtain ⟨hi₂, hc₂⟩ := ih hi₁ hr₂
    exact ⟨hi₂, by rw [hc₂, hc₁, List.flatMap_cons, List.append_assoc]⟩

theorem recordAll_isSome {r : Recorder} (h : r.Inv) {ms : List (Mem × Bytes sizeofUint64)}
    (hs : ∀ m ∈ ms, ∃ ss, spans m.1 m.2 = some ss ∧ ∀ s ∈ ss, s.1 ≤ dataLength) :
    ∃ r', r.recordAll ms = some r' := by
  induction ms generalizing r with
  | nil => exact ⟨r, rfl⟩
  | cons m ms ih =>
    obtain ⟨ss, hm, hle⟩ := hs m List.mem_cons_self
    obtain ⟨r₁, hr₁⟩ := record_isSome h hm hle
    obtain ⟨r₂, hr₂⟩ := ih (record_of_some h hr₁).1 fun m' hm' => hs m' (List.mem_cons_of_mem _ hm')
    refine ⟨r₂, ?_⟩
    rw [recordAll, List.foldlM_cons, hr₁]
    exact hr₂

end Recorder

end HEDB
