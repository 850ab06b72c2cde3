import HEDB.Foundations.ShortReads
import HEDB.RecordReplay.Desenitizer

/-!
# Short logs and the anonymizer

`retrieve_request_from_file` copies consecutive pieces of its read buffer into the request buffer
(`copyPieces`), and never looks at the return value of `fread`. A branch is safe (`SafeOn`) exactly
if the lengths keep the copies inside the two buffers and the log reaches to the end of the pieces
(`safeOn_of_fits`, `fits_of_safeOn`). This module has the branches of fixed width and the text
branches.
-/

namespace HEDB

open Layout

/-! ## Copying consecutive pieces -/

namespace Desenitizer

/-- `memcpy` of consecutive pieces of `src` to the fields given by offset and size. -/
def copyPieces : Mem → List UInt8 → List (ℕ × ℕ) → Mem
  | m, _, [] => m
  | m, src, (o, n) :: fs => copyPieces (m.write o (src.take n)) (src.drop n) fs

/-- The number of bytes of the fields. -/
def total (fs : List (ℕ × ℕ)) : ℕ := (fs.map Prod.snd).sum

section Pieces

variable {m : Mem} {src src' : List UInt8} {fs : List (ℕ × ℕ)}

theorem copyPieces_congr (h : src.take (total fs) = src'.take (total fs)) :
    copyPieces m src fs = copyPieces m src' fs := by
  induction fs generalizing m src src' with
  | nil => rfl
  | cons f fs ih =>
    obtain ⟨o, n⟩ := f
    have htotal : total ((o, n) :: fs) = n + total fs := by simp [total]
    rw [htotal] at h
    have hfirst : src.take n = src'.take n := by
      have := congrArg (List.take n) h
      rwa [List.take_take, List.take_take, Nat.min_eq_left (Nat.le_add_right _ _)] at this
    have hrest : (src.drop n).take (total fs) = (src'.drop n).take (total fs) := by
      have := congrArg (List.drop n) h
      rwa [List.drop_take, List.drop_take, Nat.add_sub_cancel_left] at this
    rw [copyPieces, copyPieces, hfirst, ih hrest]

theorem copyPieces_concat (o n : ℕ) : copyPieces m src (fs ++ [(o, n)]) =
    (copyPieces m src fs).write o ((src.drop (total fs)).take n) := by
  induction fs generalizing m src with
  | nil => rfl
  | cons f fs ih =>
    rw [List.cons_append, copyPieces, ih, List.drop_drop]
    simp [total, copyPieces]

/-- The last byte of the pieces stands in the buffer. -/
theorem getElem?_of_copyPieces (h : copyPieces m src fs = copyPieces m src' fs)
    (hpos : 0 < total fs) (hs : total fs ≤ src.length) (hs' : total fs ≤ src'.length) :
    src[total fs - 1]? = src'[total fs - 1]? := by
  induction fs using List.reverseRecOn with
  | nil => simp [total] at hpos
  | append_singleton fs f ih =>
    obtain ⟨o, n⟩ := f
    have htotal : total (fs ++ [(o, n)]) = total fs + n := by simp [total]
    rw [htotal] at hpos hs hs' ⊢
    rw [copyPieces_concat, copyPieces_concat] at h
    rcases Nat.eq_zero_or_pos n with rfl | hn
    · simp only [List.take_zero, Mem.write_nil] at h
      exact ih h hpos hs hs'
    · have hlen : ((src.drop (total fs)).take n).length = n := by
        rw [List.length_take, List.length_drop]
        omega
      have hlen' : ((src'.drop (total fs)).take n).length = n := by
        rw [List.length_take, List.length_drop]
        omega
      have hread := congrArg (fun b : Mem => b.read o n) h
      simp only [Mem.read_write_of_length _ _ _ _ hlen, Mem.read_write_of_length _ _ _ _ hlen']
        at hread
      have hlast := congrArg (fun l : List UInt8 => l[n - 1]?) hread
      simp only [List.getElem?_take_of_lt (Nat.sub_one_lt_of_lt hn), List.getElem?_drop] at hlast
      rwa [Nat.add_sub_assoc hn]

end Pieces

/-! ## Safety of a read -/

/-- The stacks that are admitted, and what a read does with them: no copy leaves its buffer, and the
request that is returned has none of its bytes from the stack. -/
structure SafeOn (P : Mem → Prop) (F : Mem → Retrieved × Cursor × Mem) : Prop where
  noFault : ∀ frame, P frame → (F frame).1 ≠ .fault
  fromLog : ∀ frame frame', P frame → P frame' → (F frame).1 = .returned 0 →
    (F frame').1 = .returned 0 → (F frame).2.2 = (F frame').2.2

/-- **A log is handled safely**, whatever the stack holds. -/
def Safe (c : Cursor) : Prop := ∀ m, SafeOn (fun _ => True) fun frame => retrieve frame c m

/-- The stacks that hold `bs` where the opcode is read. -/
def Opcode (bs : List UInt8) (frame : Mem) : Prop := frame.read 0 4 = bs

section Branches

variable {P : Mem → Prop} {F : Mem → Retrieved × Cursor × Mem} {c : Cursor} {m : Mem}
  {bs : List UInt8}

/-- Stacks with the opcode `bs` and other contents further on. -/
theorem exists_opcode (hbs : bs.length = 4) {o : ℕ} (ho : 4 ≤ o) (xs : List UInt8) :
    ∃ frame, Opcode bs frame ∧ frame.read o xs.length = xs := by
  refine ⟨(Mem.zero.write 0 bs).write o xs, ?_, Mem.read_write _ _ _⟩
  rw [Opcode, Mem.read_write_of_disjoint _ (.inl ho), Mem.read_write_of_length _ _ _ _ hbs]

/-- A length that the log does not reach can be negative. -/
theorem exists_negative (hbs : bs.length = 4) {o : ℕ} (ho : 4 ≤ o) (hc : c.rest.length < 4) :
    ∃ frame, Opcode bs frame ∧ bytesInt (c.fread (frame.read o 4)).1 < 0 := by
  have hthree : (filled c.rest 3).length = 3 := length_filled _ _
  have hagree : Agrees c.rest (filled c.rest 3 ++ [128]) := agrees_filled_append (by omega) _
  obtain ⟨frame, hop, hread⟩ := exists_opcode hbs ho (filled c.rest 3 ++ [128])
  rw [List.length_append, hthree, List.length_singleton] at hread
  exact ⟨frame, hop, by rw [hread, Cursor.fread_of_agrees hagree]; exact bytesInt_neg hthree⟩

/-- A branch that copies pieces of the read buffer into the request buffer. -/
theorem safeOn_of_le {n : ℕ} {fs : List (ℕ × ℕ)} (hn : total fs ≤ n)
    (hF : ∀ frame, ∃ c', F frame = (.returned 0, c',
      copyPieces m (c.fread (frame.read 64 n)).1 fs))
    (hle : total fs ≤ c.rest.length) : SafeOn P F where
  noFault frame _ h := by
    obtain ⟨c', hc'⟩ := hF frame
    rw [hc'] at h
    cases h
  fromLog frame frame' _ _ _ _ := by
    obtain ⟨c', hc'⟩ := hF frame
    obtain ⟨c'', hc''⟩ := hF frame'
    have htake (f : Mem) : (c.fread (f.read 64 n)).1.take (total fs) = c.rest.take (total fs) :=
      (c.agrees_fread _).take_eq hle (by simpa using hn)
    rw [hc', hc'']
    exact copyPieces_congr ((htake frame).trans (htake frame').symm)

theorem le_of_safeOn {n : ℕ} {fs : List (ℕ × ℕ)} (hn : total fs ≤ n)
    (hF : ∀ frame, ∃ c', F frame = (.returned 0, c',
      copyPieces m (c.fread (frame.read 64 n)).1 fs))
    (hbs : bs.length = 4) (h : SafeOn (Opcode bs) F) : total fs ≤ c.rest.length := by
  by_contra hshort
  rw [not_le] at hshort
  have key (b : UInt8) : ∃ frame, Opcode bs frame ∧
      (c.fread (frame.read 64 n)).1[total fs - 1]? = some b := by
    set x := filled c.rest (total fs - 1)
    have hx : x.length = total fs - 1 := length_filled _ _
    set xs := x ++ ([b] ++ List.replicate (n - total fs) 0)
    have hxs : xs.length = n := by
      simp only [xs, List.length_append, hx, List.length_singleton, List.length_replicate]
      omega
    have hagree : Agrees c.rest xs := agrees_filled_append (by omega) _
    obtain ⟨frame, hop, hread⟩ := exists_opcode hbs (o := 64) (by omega) xs
    rw [hxs] at hread
    refine ⟨frame, hop, ?_⟩
    rw [hread, Cursor.fread_of_agrees hagree, ← hx, List.getElem?_append_right le_rfl]
    simp
  obtain ⟨frame, hop, hb⟩ := key 0
  obtain ⟨frame', hop', hb'⟩ := key 1
  obtain ⟨c', hc'⟩ := hF frame
  obtain ⟨c'', hc''⟩ := hF frame'
  have heq := h.fromLog frame frame' hop hop' (by rw [hc']) (by rw [hc''])
  rw [hc', hc''] at heq
  have hlast := getElem?_of_copyPieces heq (by omega) (by simpa using hn) (by simpa using hn)
  rw [hb, hb'] at hlast
  cases hlast

end Branches

/-! ## The logs that are protected -/

/-- The lengths of a text comparison keep the copies inside the buffers. -/
def StrCmpFits (l r : ℤ) : Prop :=
  0 ≤ l ∧ 0 ≤ r ∧ l.toNat + r.toNat + sizeofInt * 2 + sizeofUint64 ≤ bufferSize ∧
    cmpLeft + l.toNat ≤ bufferSize ∧ cmpRight sizeofEncStr + r.toNat ≤ bufferSize

/-- The lengths of a substring keep the copies inside the buffers. -/
def SubstringFits (s r : ℤ) : Prop :=
  0 ≤ s ∧ 0 ≤ r ∧
    s.toNat + r.toNat + sizeofInt + encInt32Length * 2 + sizeofUint64 ≤ bufferSize ∧
    subStr + s.toNat ≤ bufferSize

/-- The lengths of a concatenation keep the copies inside the buffers. -/
def ConcatFits (l r n : ℤ) : Prop :=
  0 ≤ l ∧ 0 ≤ r ∧ 0 ≤ n ∧
    sizeofInt + l.toNat + r.toNat + n.toNat + sizeofUint64 ≤ bufferSize ∧
    calcLeft + l.toNat ≤ bufferSize ∧ calcRight sizeofEncStr + r.toNat ≤ bufferSize

/-- The size of a bulk sum of ciphertexts of `w` bytes keeps the copies inside the buffers. -/
def BulkFits (w : ℕ) (n : ℤ) : Prop := 0 ≤ n ∧ bulkItems + n.toNat * w ≤ bufferSize

instance (l r : ℤ) : Decidable (StrCmpFits l r) := inferInstanceAs (Decidable (_ ∧ _))
instance (s r : ℤ) : Decidable (SubstringFits s r) := inferInstanceAs (Decidable (_ ∧ _))
instance (l r n : ℤ) : Decidable (ConcatFits l r n) := inferInstanceAs (Decidable (_ ∧ _))
instance (w : ℕ) (n : ℤ) : Decidable (BulkFits w n) := inferInstanceAs (Decidable (_ ∧ _))

/-- The `int` at offset `o` of a list of bytes. -/
def intAt (rest : List UInt8) (o : ℕ) : ℤ := bytesInt ((rest.drop o).take 4)

/-- The items, or what of the start of the record stands in the buffer in their place, are all from
the log. -/
def BulkProtected (w : ℕ) (rest : List UInt8) : Prop :=
  4 ≤ rest.length ∧ BulkFits w (intAt rest 0) ∧
    ((intAt rest 0).toNat * w ≤ rest.length - (16 + w) ∨
      (intAt rest 0).toNat * w ≤ min rest.length (16 + w))

/-- Behind its opcode the log has all the bytes of the operands, and the lengths fit. -/
def BranchProtected (rest : List UInt8) : Cmd → Prop
  | .intCmp | .intPlus | .intMinus | .intMult | .intDiv | .intPow | .intMod =>
    encInt32Length * 2 ≤ rest.length
  | .floatCmp | .floatPlus | .floatMinus | .floatMult | .floatDiv | .floatPow | .floatMod =>
    encFloat4Length * 2 ≤ rest.length
  | .timestampCmp => encTimestampLength * 2 ≤ rest.length
  | .timestampExtractYear => encTimestampLength ≤ rest.length
  | .intSumBulk => BulkProtected encInt32Length rest
  | .floatSumBulk => BulkProtected encFloat4Length rest
  | .stringLike | .stringCmp => 8 ≤ rest.length ∧ StrCmpFits (intAt rest 0) (intAt rest 4) ∧
      (intAt rest 0).toNat + (intAt rest 4).toNat ≤ rest.length - 8
  | .stringSubstring => 8 ≤ rest.length ∧ SubstringFits (intAt rest 0) (intAt rest 4) ∧
      (intAt rest 0).toNat + encInt32Length * 2 ≤ rest.length - 8
  | .stringConcat => 12 ≤ rest.length ∧
      ConcatFits (intAt rest 0) (intAt rest 4) (intAt rest 8) ∧
      (intAt rest 0).toNat + (intAt rest 4).toNat ≤ rest.length - 12
  | .intEnc | .intDec | .floatEnc | .floatDec | .floatEvalExpr | .stringEnc | .stringDec
  | .timestampEnc | .timestampDec => True

/-- The log is at its end, or its opcode, or every opcode that the rest of the log can start, has
all its operands. -/
def Protected (rest : List UInt8) : Prop :=
  rest ≠ [] → ∀ k : Cmd, Agrees rest (intBytes k.code) → BranchProtected (rest.drop 4) k

section Branches

variable {P : Mem → Prop} {c : Cursor} {m : Mem} {bs : List UInt8}

theorem fread_length {frame : Mem} {o : ℕ} (h : 4 ≤ c.rest.length) :
    c.fread (frame.read o 4) = (c.rest.take 4, c.advance 4) := by
  have hread : (frame.read o 4).length = 4 := frame.length_read _ _
  rw [Cursor.fread_of_le (by omega), hread]

/-- A branch whose lengths are known: they have to fit, and the log has to have all the pieces. -/
theorem safeOn_of_fits {F : Mem → Retrieved × Cursor × Mem} {fits : Prop} [Decidable fits] {n : ℕ}
    {fs : List (ℕ × ℕ)} (hn : total fs ≤ n)
    (hF : ∀ frame, ∃ c' c'', F frame = if fits then
      (.returned 0, c', copyPieces m (c.fread (frame.read 64 n)).1 fs) else (.fault, c'', m))
    (hfits : fits) (hle : total fs ≤ c.rest.length) : SafeOn P F := by
  refine safeOn_of_le (m := m) hn (fun frame => ?_) hle
  obtain ⟨c', c'', h⟩ := hF frame
  exact ⟨c', by rw [h, if_pos hfits]⟩

theorem fits_of_safeOn {F : Mem → Retrieved × Cursor × Mem} {fits : Prop} [Decidable fits] {n : ℕ}
    {fs : List (ℕ × ℕ)} (hn : total fs ≤ n)
    (hF : ∀ frame, ∃ c' c'', F frame = if fits then
      (.returned 0, c', copyPieces m (c.fread (frame.read 64 n)).1 fs) else (.fault, c'', m))
    (hbs : bs.length = 4) (h : SafeOn (Opcode bs) F) : fits ∧ total fs ≤ c.rest.length := by
  by_cases hfits : fits
  · refine ⟨hfits, le_of_safeOn (m := m) hn (fun frame => ?_) hbs h⟩
    obtain ⟨c', c'', hc⟩ := hF frame
    exact ⟨c', by rw [hc, if_pos hfits]⟩
  · obtain ⟨frame, hop, -⟩ := exists_opcode hbs (le_refl 4) []
    obtain ⟨c', c'', hfault⟩ := hF frame
    exact absurd (by rw [hfault, if_neg hfits]) (h.noFault frame hop)

/-- A branch that copies two operands of `w` bytes. -/
theorem safeOn_pair {F : Mem → Retrieved × Cursor × Mem} {w o o' n : ℕ} (hn : w * 2 ≤ n)
    (hF : ∀ frame, ∃ c', F frame = (.returned 0, c',
      copyPieces m (c.fread (frame.read 64 n)).1 [(o, w), (o', w)])) :
    (w * 2 ≤ c.rest.length → SafeOn P F) ∧
      (bs.length = 4 → SafeOn (Opcode bs) F → w * 2 ≤ c.rest.length) := by
  have htotal : total [(o, w), (o', w)] = w * 2 := by
    simp [total]
    omega
  rw [← htotal] at hn ⊢
  exact ⟨safeOn_of_le hn hF, le_of_safeOn hn hF⟩

theorem safeOn_cmp (w : ℕ) :
    (w * 2 ≤ c.rest.length → SafeOn P fun frame => retrieveCmp frame c m w) ∧
      (bs.length = 4 → SafeOn (Opcode bs) (fun frame => retrieveCmp frame c m w) →
        w * 2 ≤ c.rest.length) := by
  have hn : w * 2 ≤ sizeofInt * 2 + w * 2 + sizeofUint64 := by omega
  exact safeOn_pair hn fun frame => ⟨_, rfl⟩

theorem safeOn_calc (w : ℕ) :
    (w * 2 ≤ c.rest.length → SafeOn P fun frame => retrieveCalc frame c m w) ∧
      (bs.length = 4 → SafeOn (Opcode bs) (fun frame => retrieveCalc frame c m w) →
        w * 2 ≤ c.rest.length) := by
  have hn : w * 2 ≤ sizeofInt + w * 3 + sizeofUint64 := by omega
  exact safeOn_pair hn fun frame => ⟨_, rfl⟩

theorem safeOn_year :
    (encTimestampLength ≤ c.rest.length → SafeOn P fun frame => retrieveYear frame c m) ∧
      (bs.length = 4 → SafeOn (Opcode bs) (fun frame => retrieveYear frame c m) →
        encTimestampLength ≤ c.rest.length) := by
  have hn : total [(yearIn, encTimestampLength)] ≤
      sizeofInt + encTimestampLength + encInt32Length + sizeofUint64 := by decide
  have hF (frame : Mem) : ∃ c', retrieveYear frame c m = (.returned 0, c',
      copyPieces m (c.fread (frame.read 64
        (sizeofInt + encTimestampLength + encInt32Length + sizeofUint64))).1
        [(yearIn, encTimestampLength)]) := ⟨_, rfl⟩
  exact ⟨safeOn_of_le hn hF, le_of_safeOn hn hF⟩

/-! The text branches. -/

theorem fread_lengths (frame : Mem) (h : 8 ≤ c.rest.length) :
    c.fread (frame.read 8 4) = (c.rest.take 4, c.advance 4) ∧
      (c.advance 4).fread (frame.read 12 4) =
        ((c.rest.drop 4).take 4, (c.advance 4).advance 4) := by
  refine ⟨fread_length (by omega), ?_⟩
  rw [fread_length (by rw [Cursor.length_rest_advance]; omega), Cursor.rest_advance_eq]

theorem retrieveStrCmp_of_le (frame : Mem) (h : 8 ≤ c.rest.length) :
    ∃ c' c'', retrieveStrCmp frame c m =
      if StrCmpFits (intAt c.rest 0) (intAt c.rest 4) then
        (.returned 0, c', copyPieces m ((c.advance 8).fread (frame.read 64
          ((intAt c.rest 0).toNat + (intAt c.rest 4).toNat + sizeofInt * 2 + sizeofUint64))).1
          [(cmpLeft, (intAt c.rest 0).toNat),
            (cmpRight sizeofEncStr, (intAt c.rest 4).toNat)])
      else (.fault, c'', m) := by
  obtain ⟨h₁, h₂⟩ := fread_lengths (c := c) frame (by omega)
  refine ⟨((c.advance 8).fread (frame.read 64 ((intAt c.rest 0).toNat + (intAt c.rest 4).toNat +
    sizeofInt * 2 + sizeofUint64))).2, c.advance 8, ?_⟩
  simp only [retrieveStrCmp, h₁, h₂, Cursor.advance_advance, Nat.reduceAdd]
  refine (if_congr ?_ rfl rfl).trans (ite_not ..)
  simp only [StrCmpFits, intAt, List.drop_zero]
  omega

theorem retrieveSubstring_of_le (frame : Mem) (h : 8 ≤ c.rest.length) :
    ∃ c' c'', retrieveSubstring frame c m =
      if SubstringFits (intAt c.rest 0) (intAt c.rest 4) then
        (.returned 0, c', copyPieces m ((c.advance 8).fread (frame.read 64
          ((intAt c.rest 0).toNat + (intAt c.rest 4).toNat + sizeofInt + encInt32Length * 2 +
            sizeofUint64))).1
          [(subStr, (intAt c.rest 0).toNat), (subStart, encInt32Length),
            (subLength, encInt32Length)])
      else (.fault, c'', m) := by
  obtain ⟨h₁, h₂⟩ := fread_lengths (c := c) frame (by omega)
  refine ⟨((c.advance 8).fread (frame.read 64 ((intAt c.rest 0).toNat + (intAt c.rest 4).toNat +
    sizeofInt + encInt32Length * 2 + sizeofUint64))).2, c.advance 8, ?_⟩
  simp only [retrieveSubstring, h₁, h₂, Cursor.advance_advance, Nat.reduceAdd]
  refine (if_congr ?_ rfl ?_).trans (ite_not ..)
  · simp only [SubstringFits, intAt, List.drop_zero]
    omega
  · simp only [copyPieces, intAt, List.drop_zero, List.drop_drop]

theorem retrieveConcat_of_le (frame : Mem) (h : 12 ≤ c.rest.length) :
    ∃ c' c'', retrieveConcat frame c m =
      if ConcatFits (intAt c.rest 0) (intAt c.rest 4) (intAt c.rest 8) then
        (.returned 0, c', copyPieces m ((c.advance 12).fread (frame.read 64
          (sizeofInt + (intAt c.rest 0).toNat + (intAt c.rest 4).toNat + (intAt c.rest 8).toNat +
            sizeofUint64))).1
          [(calcLeft, (intAt c.rest 0).toNat),
            (calcRight sizeofEncStr, (intAt c.rest 4).toNat)])
      else (.fault, c'', m) := by
  obtain ⟨h₁, h₂⟩ := fread_lengths (c := c) frame (by omega)
  have h₃ : (c.advance 8).fread (frame.read 16 4) =
      ((c.rest.drop 8).take 4, (c.advance 8).advance 4) := by
    rw [fread_length (by rw [Cursor.length_rest_advance]; omega), Cursor.rest_advance_eq]
  refine ⟨((c.advance 12).fread (frame.read 64 (sizeofInt + (intAt c.rest 0).toNat +
    (intAt c.rest 4).toNat + (intAt c.rest 8).toNat + sizeofUint64))).2, c.advance 12, ?_⟩
  simp only [retrieveConcat, h₁, h₂, h₃, Cursor.advance_advance, Nat.reduceAdd]
  refine (if_congr ?_ rfl rfl).trans (ite_not ..)
  simp only [ConcatFits, intAt, List.drop_zero]
  omega

/-- The lengths of the text branches have to be in the log: the stack can hold a negative one. -/
theorem le_of_safeOn_lengths {F : Mem → Retrieved × Cursor × Mem} (hbs : bs.length = 4)
    (hF : ∀ frame, bytesInt (c.fread (frame.read 8 4)).1 < 0 ∨
      bytesInt ((c.fread (frame.read 8 4)).2.fread (frame.read 12 4)).1 < 0 →
        (F frame).1 = .fault)
    (h : SafeOn (Opcode bs) F) : 8 ≤ c.rest.length := by
  by_contra hshort
  by_cases hfour : c.rest.length < 4
  · obtain ⟨frame, hop, hneg⟩ := exists_negative hbs (o := 8) (by decide) hfour
    exact h.noFault frame hop (hF frame (.inl hneg))
  · have hrest : (c.advance 4).rest.length < 4 := by
      rw [Cursor.length_rest_advance]
      omega
    obtain ⟨frame, hop, hneg⟩ := exists_negative hbs (o := 12) (by decide) hrest
    have hfirst : c.fread (frame.read 8 4) = (c.rest.take 4, c.advance 4) :=
      fread_length (by omega)
    exact h.noFault frame hop (hF frame (.inr (by rwa [hfirst])))

/-- A branch that reads `k` bytes of lengths, checks them and copies its operands. -/
theorem safeOn_text {F : Mem → Retrieved × Cursor × Mem} {fits : Prop} [Decidable fits]
    {k n t : ℕ} {fs : List (ℕ × ℕ)} (ht : total fs = t) (hn : t ≤ n)
    (hF : k ≤ c.rest.length → ∀ frame, ∃ c' c'', F frame = if fits then
      (.returned 0, c', copyPieces m ((c.advance k).fread (frame.read 64 n)).1 fs)
      else (.fault, c'', m))
    (hlengths : bs.length = 4 → SafeOn (Opcode bs) F → k ≤ c.rest.length) :
    (k ≤ c.rest.length ∧ fits ∧ t ≤ c.rest.length - k → SafeOn P F) ∧
      (bs.length = 4 → SafeOn (Opcode bs) F →
        k ≤ c.rest.length ∧ fits ∧ t ≤ c.rest.length - k) := by
  subst ht
  rw [← Cursor.length_rest_advance]
  constructor
  · rintro ⟨hk, hfits, hle⟩
    exact safeOn_of_fits hn (hF hk) hfits hle
  · intro hbs h
    have hk := hlengths hbs h
    exact ⟨hk, fits_of_safeOn hn (hF hk) hbs h⟩

theorem safeOn_strCmp :
    (BranchProtected c.rest .stringCmp → SafeOn P fun frame => retrieveStrCmp frame c m) ∧
      (bs.length = 4 → SafeOn (Opcode bs) (fun frame => retrieveStrCmp frame c m) →
        BranchProtected c.rest .stringCmp) := by
  refine safeOn_text (by simp [total]) (by omega)
    (fun hk frame => retrieveStrCmp_of_le frame hk) fun hbs h => ?_
  refine le_of_safeOn_lengths hbs (fun frame hneg => ?_) h
  simp only [retrieveStrCmp]
  rw [if_pos (hneg.imp_right Or.inl)]

theorem safeOn_substring :
    (BranchProtected c.rest .stringSubstring → SafeOn P fun frame => retrieveSubstring frame c m) ∧
      (bs.length = 4 → SafeOn (Opcode bs) (fun frame => retrieveSubstring frame c m) →
        BranchProtected c.rest .stringSubstring) := by
  refine safeOn_text (by simp [total]) (by omega)
    (fun hk frame => retrieveSubstring_of_le frame hk) fun hbs h => ?_
  refine le_of_safeOn_lengths hbs (fun frame hneg => ?_) h
  simp only [retrieveSubstring]
  rw [if_pos (hneg.imp_right Or.inl)]

theorem safeOn_concat :
    (BranchProtected c.rest .stringConcat → SafeOn P fun frame => retrieveConcat frame c m) ∧
      (bs.length = 4 → SafeOn (Opcode bs) (fun frame => retrieveConcat frame c m) →
        BranchProtected c.rest .stringConcat) := by
  refine safeOn_text (by simp [total]) (by omega)
    (fun hk frame => retrieveConcat_of_le frame hk) fun hbs h => ?_
  have htwo : 8 ≤ c.rest.length := by
    refine le_of_safeOn_lengths hbs (fun frame hneg => ?_) h
    simp only [retrieveConcat]
    rw [if_pos (hneg.imp_right Or.inl)]
  by_contra hshort
  have hrest : (c.advance 8).rest.length < 4 := by
    rw [Cursor.length_rest_advance]
    omega
  obtain ⟨frame, hop, hneg⟩ := exists_negative hbs (o := 16) (by decide) hrest
  obtain ⟨h₁, h₂⟩ := fread_lengths frame htwo
  refine h.noFault frame hop ?_
  simp only [retrieveConcat, h₁, h₂, Cursor.advance_advance, Nat.reduceAdd]
  rw [if_pos (.inr (.inr (.inl hneg)))]

end Branches

end Desenitizer

end HEDB
