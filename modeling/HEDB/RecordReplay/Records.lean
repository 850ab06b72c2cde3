import HEDB.RecordReplay.Replayer

/-!
# The records that the recorder writes and the replayer reads

Writer and reader are two hand-written functions, each with its own field order and lengths. Here
the two are compared shape by shape.

* On the bytes that follow the opcode of a record, the branch of `replay_request` cuts out the
  pieces that were written, consumes all of them, and compares the operands
  (`replayCmp_of_rest` to `replayConcat_of_rest`).
* On a buffer that holds a request of a logged type, `record` writes the opcode, then these pieces
  (`encoding_cmp` to `encoding_concat`).
-/

namespace HEDB

open Layout

/-! ## Cutting pieces -/

namespace Replayer

theorem rrprintf_flatten (args : List (List UInt8)) (tl : List UInt8) :
    rrprintf (args.flatten ++ tl) (args.map List.length) = args := by
  induction args with
  | nil => rfl
  | cons a args ih =>
    simp only [List.flatten_cons, List.append_assoc, List.map_cons, rrprintf, List.take_left,
      List.drop_left, ih]

variable {frame : Mem} {c : Cursor} {m : Mem} {tl : List UInt8}

/-- A local buffer of the total length of the next pieces receives them, and `rrprintf` cuts it at
their bounds. -/
theorem readBuffer_of_rest (frame : Mem) (lens : List ℕ) {args : List (List UInt8)} {n : ℕ}
    (hc : c.rest = args.flatten ++ tl) (hl : args.map List.length = lens) (hn : lens.sum = n) :
    readBuffer frame c n = (args.flatten, c.advance args.flatten.length) ∧
      rrprintf args.flatten lens = args := by
  subst hl
  refine ⟨Cursor.fread_of_rest hc ?_, ?_⟩
  · rw [Mem.length_read, List.length_flatten, hn]
  · simpa using rrprintf_flatten args []

/-- A read of the size of the next piece. -/
theorem fread_int_of_rest (frame : Mem) (o : ℕ) {bs : List UInt8} (hc : c.rest = bs ++ tl)
    (hl : bs.length = 4) :
    c.fread (frame.read o 4) = (bs, c.advance 4) := by
  rw [Cursor.fread_of_rest hc (by rw [Mem.length_read, hl]), hl]

/-! ## The branches of the replayer -/

section Branches

variable {left right cmp res resp ts : List UInt8}

theorem replayCmp_of_rest {w : ℕ} (hl : left.length = w) (hr : right.length = w)
    (hcmp : cmp.length = 4) (hresp : resp.length = 4) (hts : ts.length = 8)
    (hc : c.rest = [left, right, cmp, resp, ts].flatten ++ tl) :
    replayCmp frame c m w =
      if m.read cmpLeft w = left ∧ m.read (cmpRight w) w = right then
        (.answer (bytesInt resp), c.advance [left, right, cmp, resp, ts].flatten.length,
          m.write (cmpCmp w) cmp)
      else (.retryFailed, c.advance [left, right, cmp, resp, ts].flatten.length, m) := by
  obtain ⟨hread, hcut⟩ := readBuffer_of_rest frame [w, w, 4, 4, 8]
    (n := sizeofInt * 2 + w * 2 + sizeofUint64) hc (by simp [hl, hr, hcmp, hresp, hts])
    (by simp; omega)
  simp only [replayCmp, hread, hcut, ne_eq, ← not_and_or, ite_not]

theorem replayCalc_of_rest {w : ℕ} (hl : left.length = w) (hr : right.length = w)
    (hres : res.length = w) (hresp : resp.length = 4) (hts : ts.length = 8)
    (hc : c.rest = [left, right, res, resp, ts].flatten ++ tl) :
    replayCalc frame c m w =
      if m.read calcLeft w = left ∧ m.read (calcRight w) w = right then
        (.answer (bytesInt resp), c.advance [left, right, res, resp, ts].flatten.length,
          m.write (calcRes w) res)
      else (.retryFailed, c.advance [left, right, res, resp, ts].flatten.length, m) := by
  obtain ⟨hread, hcut⟩ := readBuffer_of_rest frame [w, w, w, 4, 8]
    (n := sizeofInt + w * 3 + sizeofUint64) hc (by simp [hl, hr, hres, hresp, hts])
    (by simp; omega)
  simp only [replayCalc, hread, hcut, ne_eq, ← not_and_or, ite_not, eq_comm (a := left),
    eq_comm (a := right)]

theorem replayYear_of_rest {input : List UInt8} (hi : input.length = encTimestampLength)
    (hres : res.length = encInt32Length) (hresp : resp.length = 4) (hts : ts.length = 8)
    (hc : c.rest = [input, res, resp, ts].flatten ++ tl) :
    replayYear frame c m =
      if m.read yearIn encTimestampLength = input then
        (.answer (bytesInt resp), c.advance [input, res, resp, ts].flatten.length,
          m.write yearRes res)
      else (.retryFailed, c.advance [input, res, resp, ts].flatten.length, m) := by
  obtain ⟨hread, hcut⟩ := readBuffer_of_rest frame [encTimestampLength, encInt32Length, 4, 8]
    (n := sizeofInt + encTimestampLength + encInt32Length + sizeofUint64) hc
    (by simp [hi, hres, hresp, hts]) (by simp)
  simp only [replayYear, hread, hcut, ne_eq, ite_not, eq_comm (a := input)]

/-- The loop over the items accepts exactly the items of the request. -/
theorem sameItems_iff {w : ℕ} {items : List (List UInt8)} (hw : ∀ x ∈ items, x.length = w) (i : ℕ) :
    sameItems m w items.flatten i items.length = true ↔
      items = (List.range' i items.length).map fun j => m.read (bulkItems + w * j) w := by
  induction items generalizing i with
  | nil => simp [sameItems]
  | cons x items ih =>
    have hx := hw x List.mem_cons_self
    have ht := ih (fun y hy => hw y (List.mem_cons_of_mem _ hy)) (i + 1)
    simp only [List.length_cons, sameItems, List.flatten_cons, ← hx, List.take_left,
      List.drop_left, Bool.and_eq_true, beq_iff_eq, List.range'_succ, List.map_cons,
      List.cons.injEq]
    rw [hx, ht]

theorem replayBulk_of_rest {w : ℕ} {size : List UInt8} {items : List (List UInt8)}
    (hw : ∀ x ∈ items, x.length = w) (hs : size.length = 4)
    (hn : bytesInt size = items.length) (hres : res.length = w) (hresp : resp.length = 4)
    (hts : ts.length = 8)
    (hc : c.rest = [size, res, resp, ts].flatten ++ (items.flatten ++ tl)) :
    replayBulk frame c m w =
      if m.int Layout.bulkSize = items.length then
        if items = Recorder.itemsAt m w items.length then
          (.answer (bytesInt resp),
            c.advance ([size, res, resp, ts].flatten.length + items.flatten.length),
            m.write (bulkRes w) res)
        else (.retryFailed,
          c.advance ([size, res, resp, ts].flatten.length + items.flatten.length), m)
      else (.retryFailed, c.advance [size, res, resp, ts].flatten.length, m) := by
  obtain ⟨hread, hcut⟩ := readBuffer_of_rest frame [4, w, 4, 8]
    (n := sizeofInt * 2 + w + sizeofUint64) hc (by simp [hs, hres, hresp, hts])
    (by simp; omega)
  have hlen := length_flatten_of_forall hw
  have hitems : readOperators frame (c.advance [size, res, resp, ts].flatten.length)
      (items.length * w) = (items.flatten, _) :=
    Cursor.fread_of_rest (Cursor.rest_advance hc) (by rw [Mem.length_read, hlen])
  have hsame := sameItems_iff (m := m) hw 0
  rw [← List.range_eq_range'] at hsame
  simp only [replayBulk, hread, hcut, hn, ne_eq, ite_not, Int.toNat_natCast, hitems,
    Cursor.advance_advance]
  by_cases hsize : m.int Layout.bulkSize = items.length
  · simp only [hsize, if_true, if_neg (show ¬ (items.length : ℤ) < 0 by omega)]
    by_cases hi : items = Recorder.itemsAt m w items.length
    · rw [if_pos (hsame.mpr hi), if_pos hi]
    · rw [if_neg fun h => hi (hsame.mp h), if_neg hi]
  · rw [if_neg fun h => hsize h.symm, if_neg hsize]

/-! The text branches read the lengths first, and only accept those of the request. -/

theorem fread_lengths_of_rest (frame : Mem) {l r : ℤ}
    (hc : c.rest = intBytes l ++ (intBytes r ++ tl)) :
    c.fread (frame.read 8 4) = (intBytes l, c.advance 4) ∧
      (c.advance 4).fread (frame.read 12 4) = (intBytes r, c.advance 8) ∧
      (c.advance 8).rest = tl := by
  have hc₁ := Cursor.rest_advance_int hc
  have hc₂ := Cursor.rest_advance_int hc₁
  rw [Cursor.advance_advance] at hc₂
  refine ⟨fread_int_of_rest frame 8 hc (length_intBytes l), ?_, hc₂⟩
  rw [fread_int_of_rest frame 12 hc₁ (length_intBytes r), Cursor.advance_advance]

theorem replayStrCmp_of_rest {l r : ℤ} (hil : IsInt l) (hir : IsInt r)
    (hl : left.length = l.toNat) (hr : right.length = r.toNat)
    (hcmp : cmp.length = 4) (hresp : resp.length = 4) (hts : ts.length = 8)
    (hc : c.rest = intBytes l ++ (intBytes r ++ ([left, right, cmp, resp, ts].flatten ++ tl))) :
    replayStrCmp frame c m =
      if l = Recorder.sizeAt m cmpLeft ∧ r = Recorder.sizeAt m (cmpRight sizeofEncStr) then
        if FitsEncStr l ∧ FitsEncStr r then
          (.answer (bytesInt resp), c.advance (8 + [left, right, cmp, resp, ts].flatten.length),
            m.write (cmpCmp sizeofEncStr) cmp)
        else (.fault, c.advance 8, m)
      else (.retryFailed, c.advance 8, m) := by
  obtain ⟨h₁, h₂, hc₂⟩ := fread_lengths_of_rest frame hc
  obtain ⟨hread, hcut⟩ := readBuffer_of_rest frame [l.toNat, r.toNat, 4, 4, 8]
    (n := l.toNat + r.toNat + sizeofInt * 2 + sizeofUint64) hc₂
    (by simp [hl, hr, hcmp, hresp, hts]) (by simp; omega)
  simp only [replayStrCmp, h₁, h₂, bytesInt_intBytes hil, bytesInt_intBytes hir, ne_eq,
    ← not_and_or, ite_not, Cursor.advance_advance, hread, hcut]

theorem replaySubstring_of_rest {s r : ℤ} {str start length : List UInt8} (his : IsInt s)
    (hir : IsInt r) (hs : str.length = s.toNat) (hr : res.length = r.toNat)
    (hst : start.length = encInt32Length) (hle : length.length = encInt32Length)
    (hresp : resp.length = 4) (hts : ts.length = 8)
    (hc : c.rest = intBytes s ++ (intBytes r ++
      ([str, start, length, res, resp, ts].flatten ++ tl))) :
    replaySubstring frame c m =
      if s = Recorder.sizeAt m subStr then
        if FitsEncStr s ∧ FitsEncStr r then
          if m.read subStr s.toNat = str ∧ m.read subStart encInt32Length = start ∧
              m.read subLength encInt32Length = length then
            (.answer (bytesInt resp),
              c.advance (8 + [str, start, length, res, resp, ts].flatten.length),
              m.write subRes res)
          else (.retryFailed,
            c.advance (8 + [str, start, length, res, resp, ts].flatten.length), m)
        else (.fault, c.advance 8, m)
      else (.retryFailed, c.advance 8, m) := by
  obtain ⟨h₁, h₂, hc₂⟩ := fread_lengths_of_rest frame hc
  obtain ⟨hread, hcut⟩ := readBuffer_of_rest frame
    [s.toNat, encInt32Length, encInt32Length, r.toNat, 4, 8]
    (n := s.toNat + r.toNat + sizeofInt + encInt32Length * 2 + sizeofUint64) hc₂
    (by simp [hs, hr, hst, hle, hresp, hts]) (by simp; omega)
  simp only [replaySubstring, h₁, h₂, bytesInt_intBytes his, bytesInt_intBytes hir, ne_eq,
    ite_not, Cursor.advance_advance, hread, hcut, ← not_and_or,
    eq_comm (a := str), eq_comm (a := start), eq_comm (a := length)]

theorem replayConcat_of_rest {l r n : ℤ} (hil : IsInt l) (hir : IsInt r) (hin : IsInt n)
    (hl : left.length = l.toNat) (hr : right.length = r.toNat) (hres : res.length = n.toNat)
    (hresp : resp.length = 4) (hts : ts.length = 8)
    (hc : c.rest = intBytes l ++ (intBytes r ++ (intBytes n ++
      ([left, right, res, resp, ts].flatten ++ tl)))) :
    replayConcat frame c m =
      if l = Recorder.sizeAt m calcLeft ∧ r = Recorder.sizeAt m (calcRight sizeofEncStr) then
        if FitsEncStr l ∧ FitsEncStr r ∧ FitsEncStr n then
          if m.read calcLeft l.toNat = left ∧ m.read (calcRight sizeofEncStr) r.toNat = right then
            (.answer (bytesInt resp), c.advance (12 + [left, right, res, resp, ts].flatten.length),
              m.write (calcRes sizeofEncStr) res)
          else (.retryFailed, c.advance (12 + [left, right, res, resp, ts].flatten.length), m)
        else (.fault, c.advance 12, m)
      else (.retryFailed, c.advance 12, m) := by
  obtain ⟨h₁, h₂, hc₂⟩ := fread_lengths_of_rest frame hc
  have h₃ := fread_int_of_rest frame 16 hc₂ (length_intBytes n)
  have hc₃ := Cursor.rest_advance_int hc₂
  rw [Cursor.advance_advance] at hc₃
  obtain ⟨hread, hcut⟩ := readBuffer_of_rest frame [l.toNat, r.toNat, n.toNat, 4, 8]
    (n := sizeofInt + l.toNat + r.toNat + n.toNat + sizeofUint64) hc₃
    (by simp [hl, hr, hres, hresp, hts]) (by simp; omega)
  simp only [replayConcat, h₁, h₂, h₃, bytesInt_intBytes hil, bytesInt_intBytes hir,
    bytesInt_intBytes hin, ne_eq, ite_not, Cursor.advance_advance, Nat.reduceAdd,
    hread, hcut, ← not_and_or, eq_comm (a := left), eq_comm (a := right)]

end Branches

end Replayer

/-! ## The records of the recorder -/

namespace Request

variable {q : Request} {m : Mem}

theorem In.read_reqType (h : q.In m) : m.read Layout.reqType 4 = intBytes q.cmd.code := by
  have hr := h (Layout.reqType, intBytes q.cmd.code) List.mem_cons_self
  rwa [length_intBytes] at hr

/-- The length of an `EncStr` operand. -/
theorem In.uint_len (h : q.In m) {o : ℕ} {s : EncStr} (hs : copyEnc o s ⊆ q.body) :
    m.uint (o + strLen) = s.len := by
  have hlen : s.len ≤ encStringLength := s.len_le
  rw [Mem.uint, h.field (hs List.mem_cons_self) (length_leBytes 4 s.len), leNat_leBytes]
  apply Nat.mod_eq_of_lt
  simp at hlen
  omega

theorem In.sizeAt (h : q.In m) {o : ℕ} {s : EncStr} (hs : copyEnc o s ⊆ q.body) :
    Recorder.sizeAt m o = 8 + s.len := by
  have hlen : s.len ≤ encStringLength := s.len_le
  rw [Recorder.sizeAt, h.uint_len hs, encstrSize_of_le]
  simp at hlen
  omega

/-- The number of items of a bulk request fits an `int`. -/
theorem bytesInt_length {w : ℕ} {items : List (Bytes w)} (hn : items.length ≤ HEDB.bulkSize) :
    bytesInt (intBytes items.length) = items.length := by
  rw [bytesInt_intBytes]
  simp [IsInt] at hn ⊢
  omega

theorem In.bulkSize {n : Num} {items : List (Bytes n.size)} {hn : items.length ≤ HEDB.bulkSize}
    (h : (Request.bulk n items hn).In m) : m.int Layout.bulkSize = items.length := by
  rw [Mem.int, h.field (o := Layout.bulkSize) (by simp [body]) (length_intBytes items.length),
    bytesInt_length hn]

/-- The items of a bulk request, one by one. -/
theorem In.itemsAt {n : Num} {items : List (Bytes n.size)} {hn : items.length ≤ HEDB.bulkSize}
    (h : (Request.bulk n items hn).In m) :
    Recorder.itemsAt m n.size items.length = items.map Bytes.bytes := by
  have hread : m.read bulkItems (n.size * items.length) = items.flatMap Bytes.bytes :=
    h.field (by simp [body]) (length_flatMap_bytes items)
  clear h hn
  rw [Recorder.itemsAt]
  generalize bulkItems = o at hread ⊢
  induction items generalizing o with
  | nil => rfl
  | cons x items ih =>
    rw [List.length_cons, Nat.mul_succ, Nat.add_comm, Mem.read_add, List.flatMap_cons] at hread
    obtain ⟨hx, hrest⟩ := List.append_inj hread (by rw [Mem.length_read, x.size])
    rw [List.length_cons, List.range_succ_eq_map, List.map_cons, List.map_cons, List.map_map,
      ← ih _ hrest, Nat.mul_zero, Nat.add_zero, hx]
    congr 1
    apply List.map_congr_left
    intro i _
    simp only [Function.comp_apply, Nat.succ_eq_add_one, Nat.mul_succ]
    congr 1
    omega

end Request

namespace Recorder

section Encodings

variable {m : Mem} {timestamp : Bytes sizeofUint64}

theorem encoding_cmp {f : Fam} {left right : Bytes f.size}
    (h : (Request.cmp f left right).In m) :
    spans m timestamp = some (cmpSpans m timestamp f.size) ∧
      encoding m timestamp = intBytes f.cmpCmd.code ++
        [left.bytes, right.bytes, m.read (cmpCmp f.size) 4, m.read resp 4,
          timestamp.bytes].flatten := by
  have hspans : spans m timestamp = some (cmpSpans m timestamp f.size) := by
    simp only [spans, h.reqType]
    cases f <;> simp [Request.cmd, Fam.cmpCmd, Cmd.code]
  obtain ⟨hl, hr⟩ := h.cmp
  refine ⟨hspans, ?_⟩
  simp only [encoding, hspans, cmpSpans, Option.getD_some, List.flatMap_singleton, rrprintf,
    List.flatten_cons, h.read_reqType, hl, hr, Request.cmd]

theorem encoding_calc {n : Num} {op : CalcOp} {left right : Bytes n.size}
    (h : (Request.calcNum n op left right).In m) :
    spans m timestamp = some (calcSpans m timestamp n.size) ∧
      encoding m timestamp = intBytes (n.calcCmd op).code ++
        [left.bytes, right.bytes, m.read (calcRes n.size) n.size, m.read resp 4,
          timestamp.bytes].flatten := by
  have hspans : spans m timestamp = some (calcSpans m timestamp n.size) := by
    simp only [spans, h.reqType]
    cases n <;> cases op <;> simp [Request.cmd, Num.calcCmd, Cmd.code]
  have ho : m.read calcOp 4 = intBytes (n.calcCmd op).code :=
    h.field (by simp [Request.body]) (length_intBytes _)
  obtain ⟨hl, hr⟩ := h.calcNum
  refine ⟨hspans, ?_⟩
  simp only [encoding, hspans, calcSpans, Option.getD_some, List.flatMap_singleton, rrprintf,
    List.flatten_cons, ho, hl, hr]

theorem encoding_bulk {n : Num} {items : List (Bytes n.size)} {hn : items.length ≤ HEDB.bulkSize}
    (h : (Request.bulk n items hn).In m) :
    spans m timestamp = some [(sizeofInt * 3 + n.size + sizeofUint64,
        [m.read reqType 4, m.read Layout.bulkSize 4, m.read (bulkRes n.size) n.size, m.read resp 4,
          timestamp.bytes]), (items.length * n.size, itemsAt m n.size items.length)] ∧
      encoding m timestamp = intBytes n.bulkCmd.code ++
        ([intBytes items.length, m.read (bulkRes n.size) n.size, m.read resp 4,
          timestamp.bytes].flatten ++ (items.map Bytes.bytes).flatten) := by
  have hs : m.read Layout.bulkSize 4 = intBytes items.length :=
    h.field (by simp [Request.body]) (length_intBytes _)
  have hspans : spans m timestamp = bulkSpans m timestamp n.size := by
    simp only [spans, h.reqType]
    cases n <;> simp [Request.cmd, Num.bulkCmd, Cmd.code]
  rw [bulkSpans, h.bulkSize, if_neg (by omega), Int.toNat_natCast] at hspans
  refine ⟨hspans, ?_⟩
  simp only [encoding, hspans, Option.getD_some, List.flatMap_cons, List.flatMap_nil, rrprintf,
    List.flatten_cons, h.read_reqType, hs, h.itemsAt, Request.cmd, List.append_assoc,
    List.append_nil]

theorem encoding_year {input : Bytes encTimestampLength}
    (h : (Request.extractYear input).In m) :
    spans m timestamp = some (yearSpans m timestamp) ∧
      encoding m timestamp = intBytes Cmd.timestampExtractYear.code ++
        [input.bytes, m.read yearRes encInt32Length, m.read resp 4, timestamp.bytes].flatten := by
  have hspans : spans m timestamp = some (yearSpans m timestamp) := by
    simp only [spans, h.reqType]
    simp [Request.cmd, Cmd.code]
  have hi := h.extractYear
  refine ⟨hspans, ?_⟩
  simp only [encoding, hspans, yearSpans, Option.getD_some, List.flatMap_singleton, rrprintf,
    List.flatten_cons, h.read_reqType, hi, Request.cmd]

/-- Text comparison and `LIKE` have one record shape. -/
theorem encoding_strCmp {q : Request} {left right : EncStr}
    (hq : q = .strCmp left right ∨ q = .strLike left right) (h : q.In m) :
    spans m timestamp = strCmpSpans m timestamp ∧
      encoding m timestamp = intBytes q.cmd.code ++
        (intBytes (8 + left.len) ++ (intBytes (8 + right.len) ++
          [m.read cmpLeft (8 + left.len), m.read (cmpRight sizeofEncStr) (8 + right.len),
            m.read (cmpCmp sizeofEncStr) 4, m.read resp 4, timestamp.bytes].flatten)) := by
  have hspans : spans m timestamp = strCmpSpans m timestamp := by
    simp only [spans, h.reqType]
    obtain rfl | rfl := hq <;> simp [Request.cmd, Cmd.code]
  have hbody : q.body = copyEnc cmpLeft left ++ copyEnc (cmpRight sizeofEncStr) right := by
    obtain rfl | rfl := hq <;> rfl
  have hl := h.sizeAt (o := cmpLeft) (s := left) (by rw [hbody]; simp)
  have hr := h.sizeAt (o := cmpRight sizeofEncStr) (s := right) (by rw [hbody]; simp)
  refine ⟨hspans, ?_⟩
  rw [encoding, hspans, strCmpSpans, hl, hr, if_neg (by omega)]
  simp only [Option.getD_some, List.flatMap_singleton, rrprintf, List.flatten_cons,
    h.read_reqType, show ∀ k : ℕ, ((8 : ℤ) + k).toNat = 8 + k by omega]

/-- A substring whose result has a negative size is not recorded. -/
theorem spans_substring {str : EncStr} {start length : Bytes encInt32Length}
    (h : (Request.substring str start length).In m) :
    spans m timestamp = substringSpans m timestamp ∧
      (0 ≤ sizeAt m subRes ↔ (spans m timestamp).isSome) := by
  have hspans : spans m timestamp = substringSpans m timestamp := by
    simp only [spans, h.reqType]
    simp [Request.cmd, Cmd.code]
  have hs := h.sizeAt (o := subStr) (s := str) (by simp [Request.body])
  refine ⟨hspans, ?_⟩
  rw [hspans, substringSpans, hs]
  split_ifs with hneg
  · simp only [Option.isSome_none, Bool.false_eq_true, iff_false]
    omega
  · simp only [Option.isSome_some, iff_true]
    omega

theorem encoding_substring {str : EncStr} {start length : Bytes encInt32Length}
    (h : (Request.substring str start length).In m) (hres : 0 ≤ sizeAt m subRes) :
    encoding m timestamp = intBytes Cmd.stringSubstring.code ++
      (intBytes (8 + str.len) ++ (intBytes (sizeAt m subRes) ++
        [m.read subStr (8 + str.len), start.bytes, length.bytes,
          m.read subRes (sizeAt m subRes).toNat, m.read resp 4, timestamp.bytes].flatten)) := by
  have hs := h.sizeAt (o := subStr) (s := str) (by simp [Request.body])
  obtain ⟨hst, hle⟩ := h.substring
  rw [encoding, (spans_substring h).1, substringSpans, hs, if_neg (by omega)]
  simp only [Option.getD_some, List.flatMap_singleton, rrprintf, List.flatten_cons,
    h.read_reqType, hst, hle, Request.cmd, show ∀ k : ℕ, ((8 : ℤ) + k).toNat = 8 + k by omega]

/-- A concatenation whose result has a negative size is not recorded. -/
theorem spans_concat {left right : EncStr} (h : (Request.concat left right).In m) :
    spans m timestamp = concatSpans m timestamp ∧
      (0 ≤ sizeAt m (calcRes sizeofEncStr) ↔ (spans m timestamp).isSome) := by
  have hspans : spans m timestamp = concatSpans m timestamp := by
    simp only [spans, h.reqType]
    simp [Request.cmd, Cmd.code]
  have hl := h.sizeAt (o := calcLeft) (s := left) (by simp [Request.body])
  have hr := h.sizeAt (o := calcRight sizeofEncStr) (s := right) (by simp [Request.body])
  refine ⟨hspans, ?_⟩
  rw [hspans, concatSpans, hl, hr]
  split_ifs with hneg
  · simp only [Option.isSome_none, Bool.false_eq_true, iff_false]
    omega
  · simp only [Option.isSome_some, iff_true]
    omega

theorem encoding_concat {left right : EncStr} (h : (Request.concat left right).In m)
    (hres : 0 ≤ sizeAt m (calcRes sizeofEncStr)) :
    encoding m timestamp = intBytes Cmd.stringConcat.code ++
      (intBytes (8 + left.len) ++ (intBytes (8 + right.len) ++
        (intBytes (sizeAt m (calcRes sizeofEncStr)) ++
        [m.read calcLeft (8 + left.len), m.read (calcRight sizeofEncStr) (8 + right.len),
          m.read (calcRes sizeofEncStr) (sizeAt m (calcRes sizeofEncStr)).toNat,
          m.read resp 4, timestamp.bytes].flatten))) := by
  have ho : m.read calcOp 4 = intBytes Cmd.stringConcat.code :=
    h.field (by simp [Request.body]) (length_intBytes _)
  have hl := h.sizeAt (o := calcLeft) (s := left) (by simp [Request.body])
  have hr := h.sizeAt (o := calcRight sizeofEncStr) (s := right) (by simp [Request.body])
  rw [encoding, (spans_concat h).1, concatSpans, hl, hr, if_neg (by omega)]
  simp only [Option.getD_some, List.flatMap_singleton, rrprintf, List.flatten_cons, ho,
    show ∀ k : ℕ, ((8 : ℤ) + k).toNat = 8 + k by omega]

end Encodings

end Recorder

end HEDB
