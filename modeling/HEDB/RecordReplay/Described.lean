import HEDB.RecordReplay.Shapes

/-!
# The shapes of the requests

`replay_request` has a branch for each kind of request, with its own reads, its own buffers and its
own order of the fields. Each does with the bytes that it reads what the `Shape` of its record says
(`describes_shapeOf`).
-/

namespace HEDB

open Layout

namespace Replayer

/-! ## One shape for each kind of request -/

section Shapes

variable (m : Mem)

/-- The comparison of ciphertexts of `w` bytes. -/
def cmpShape (w : ℕ) : Shape where
  head := intBytes (m.int reqType)
  sized := false
  width := 4
  before := m.read cmpLeft w ++ m.read (cmpRight w) w
  skip := 0
  after := []
  res := cmpCmp w
  lengths := [(0, 4)]
  buffer := w * 2 + 12
  operators := []
  width_le := by decide

/-- The arithmetic. -/
def calcShape (n : Num) : Shape where
  head := intBytes (m.int reqType)
  sized := false
  width := n.size
  before := m.read calcLeft n.size ++ m.read (calcRight n.size) n.size
  skip := 0
  after := []
  res := calcRes n.size
  lengths := [(0, 4)]
  buffer := n.size * 2 + 12
  operators := []
  width_le := by cases n <;> decide

/-- The bulk sum. -/
def bulkShape (n : Num) : Shape where
  head := intBytes (m.int reqType) ++ intBytes (m.int Layout.bulkSize)
  sized := false
  width := n.size
  before := []
  skip := 0
  after := m.read bulkItems (n.size * (m.int Layout.bulkSize).toNat)
  res := bulkRes n.size
  lengths := [(0, 4)]
  buffer := 16
  operators := [(128, (m.int Layout.bulkSize).toNat * n.size)]
  width_le := by cases n <;> decide

/-- The year extraction. -/
def yearShape : Shape where
  head := intBytes (m.int reqType)
  sized := false
  width := encInt32Length
  before := m.read yearIn encTimestampLength
  skip := 0
  after := []
  res := yearRes
  lengths := [(0, 4)]
  buffer := encTimestampLength + 12
  operators := []
  width_le := by decide

/-- Text comparison and `LIKE`. -/
def strCmpShape : Shape where
  head := intBytes (m.int reqType) ++ (intBytes (Recorder.sizeAt m cmpLeft) ++
    intBytes (Recorder.sizeAt m (cmpRight sizeofEncStr)))
  sized := false
  width := 4
  before := []
  skip := (Recorder.sizeAt m cmpLeft).toNat + (Recorder.sizeAt m (cmpRight sizeofEncStr)).toNat
  after := []
  res := cmpCmp sizeofEncStr
  lengths := [(0, 4), (8, 4), (12, 4)]
  buffer := (Recorder.sizeAt m cmpLeft).toNat +
    (Recorder.sizeAt m (cmpRight sizeofEncStr)).toNat + 12
  operators := []
  width_le := by decide

/-- The substring. -/
def substringShape : Shape where
  head := intBytes (m.int reqType) ++ intBytes (Recorder.sizeAt m subStr)
  sized := true
  width := 0
  before := encStrAt m subStr ++ (m.read subStart encInt32Length ++
    m.read subLength encInt32Length)
  skip := 0
  after := []
  res := subRes
  lengths := [(0, 4), (8, 4), (12, 4)]
  buffer := (Recorder.sizeAt m subStr).toNat + encInt32Length * 2 + 12
  operators := []
  width_le := by decide

/-- The concatenation. -/
def concatShape : Shape where
  head := intBytes (m.int reqType) ++ (intBytes (Recorder.sizeAt m calcLeft) ++
    intBytes (Recorder.sizeAt m (calcRight sizeofEncStr)))
  sized := true
  width := 0
  before := encStrAt m calcLeft ++ encStrAt m (calcRight sizeofEncStr)
  skip := 0
  after := []
  res := calcRes sizeofEncStr
  lengths := [(0, 4), (8, 4), (12, 4), (16, 4)]
  buffer := (Recorder.sizeAt m calcLeft).toNat +
    (Recorder.sizeAt m (calcRight sizeofEncStr)).toNat + 12
  operators := []
  width_le := by decide

/-- The shape of the record of a logged request. -/
def shapeOf : Request → Shape
  | .cmp f _ _ => cmpShape m f.size
  | .calcNum n _ _ _ => calcShape m n
  | .bulk n _ _ => bulkShape m n
  | .extractYear _ => yearShape m
  | .substring _ _ _ => substringShape m
  | .concat _ _ => concatShape m
  | _ => strCmpShape m

theorem wellFormed_shapeOf (q : Request) : (shapeOf m q).WellFormed := by
  cases q
  all_goals
    constructor
    · intro n hn
      simp [shapeOf, Shape.destinations, cmpShape, calcShape, bulkShape, yearShape, strCmpShape,
        substringShape, concatShape] at hn ⊢
      try omega
    · intro n
      simp [shapeOf, Shape.destinations, Shape.fixed, Shape.start, cmpShape, calcShape, bulkShape,
        yearShape, strCmpShape, substringShape, concatShape, encStrAt]
      try omega
    · intro h
      simp [shapeOf, Shape.fixed, cmpShape, calcShape, bulkShape, yearShape, strCmpShape,
        substringShape, concatShape] at h ⊢

end Shapes

/-! ## The branches of `replay_request` -/

section Describes

variable {m : Mem}

theorem prefix_append_iff {x y a tl : List UInt8} (h : a.length = x.length) :
    x ++ y <+: a ++ tl ↔ a = x ∧ y <+: tl := by
  rw [append_prefix_iff, ← h, List.take_left, List.drop_left]

theorem prefix_append_iff_eq {x a tl : List UInt8} (h : a.length = x.length) :
    x <+: a ++ tl ↔ a = x := by
  have happend : x ++ [] <+: a ++ tl ↔ a = x ∧ [] <+: tl := prefix_append_iff h
  rwa [List.append_nil, and_iff_left List.nil_prefix] at happend

theorem verdict_ite {p : Prop} [Decidable p] (x y : Outcome × Cursor × Mem) :
    verdict (if p then x else y) = if p then verdict x else verdict y := apply_ite ..

theorem verdict_answer (v : ℤ) (c : Cursor) (b : Mem) :
    verdict (.answer v, c, b) = .answered v b := rfl

theorem verdict_retryFailed (c : Cursor) (b : Mem) : verdict (.retryFailed, c, b) = .rejected := rfl

theorem verdict_fault (c : Cursor) (b : Mem) : verdict (.fault, c, b) = .fault := rfl

theorem verdict_replayRequest (frame : Mem) (c : Cursor) (previousOp : ℤ) :
    verdict (replayRequest frame c m previousOp) =
      if (c.fread (frame.read 0 4)).1 = intBytes (m.int reqType) then
        verdict (replayBranch frame (c.fread (frame.read 0 4)).2 m)
      else .rejected := by
  have hlen : (c.fread (frame.read 0 4)).1.length = 4 := by
    rw [Cursor.length_fread, Mem.length_read]
  have hop : bytesInt (c.fread (frame.read 0 4)).1 = m.int reqType ↔
      (c.fread (frame.read 0 4)).1 = intBytes (m.int reqType) :=
    bytesInt_eq_iff hlen (isInt_bytesInt _)
  simp only [replayRequest, verdict_ite, ne_eq, hop, ite_not]
  rfl

/-- A record without a length, behind its head. -/
theorem Shape.verdict_of_head {s : Shape} (hs : s.sized = false) (tl : List UInt8) :
    s.verdict (s.head ++ tl) m =
      if s.before <+: tl ∧ s.after <+: tl.drop (s.start + s.width + 12) then
        .answered (bytesInt ((tl.drop (s.start + s.width)).take 4))
          (m.write s.res ((tl.drop s.start).take s.width))
      else .rejected := by
  have hfixed : s.fixed = s.head.length := by simp [fixed, hs]
  have hsize : s.size (s.head ++ tl) = s.width := by simp [size, hs]
  rw [verdict, if_pos (List.prefix_append _ _), if_pos (fits_width hs _), hsize, hfixed,
    Int.toNat_natCast]
  simp only [Nat.add_assoc, ← List.drop_drop, List.drop_left]

theorem Shape.size_of_head {s : Shape} (hs : s.sized = true) {sz : List UInt8}
    (hsz : sz.length = 4) (tl : List UInt8) : s.size (s.head ++ (sz ++ tl)) = bytesInt sz := by
  rw [size, if_pos hs, List.drop_left, List.take_left' hsz]

/-- A record with a length, behind its head. -/
theorem Shape.verdict_of_size {s : Shape} (hs : s.sized = true) {sz : List UInt8}
    (hsz : sz.length = 4) (tl : List UInt8) :
    s.verdict (s.head ++ (sz ++ tl)) m =
      if FitsEncStr (bytesInt sz) then
        if s.before <+: tl ∧ s.after <+: tl.drop (s.start + (bytesInt sz).toNat + 12) then
          .answered (bytesInt ((tl.drop (s.start + (bytesInt sz).toNat)).take 4))
            (m.write s.res ((tl.drop s.start).take (bytesInt sz).toNat))
        else .rejected
      else .fault := by
  have hfixed : s.fixed = s.head.length + sz.length := by simp [fixed, hs, hsz]
  rw [verdict, if_pos (List.prefix_append _ _), size_of_head hs hsz, hfixed]
  simp only [Nat.add_assoc, ← List.drop_drop, List.drop_left]

theorem Shape.verdict_of_not_head {s : Shape} {bs : List UInt8} (h : ¬ s.head <+: bs) :
    s.verdict bs m = .rejected := if_neg h

/-- The opcode is read and compared first. -/
theorem Shape.describes_of_opcode {s : Shape} {lens : List (ℕ × ℕ)} {bs : List UInt8}
    (hhead : s.head = intBytes (m.int reqType) ++ bs) (hlengths : s.lengths = (0, 4) :: lens)
    (h : ∀ frame c n, n = (s.size (intBytes (m.int reqType) ++
        delivered frame c (lens ++ (64, s.buffer + n) :: s.operators))).toNat →
      Replayer.verdict (replayBranch frame c m) = s.verdict (intBytes (m.int reqType) ++
        delivered frame c (lens ++ (64, s.buffer + n) :: s.operators)) m) : s.Describes m := by
  intro frame c p n hn
  rw [destinations, hlengths, List.cons_append, delivered] at hn ⊢
  rw [verdict_replayRequest]
  split
  · rename_i hop
    rw [hop] at hn ⊢
    exact h frame _ n hn
  · rename_i hop
    refine (verdict_of_not_head fun hpre => hop ?_).symm
    rw [hhead] at hpre
    exact ((prefix_append_iff (by simp)).mp hpre).1

/-- A shape of which only the opcode stands before the buffer. -/
theorem Shape.describes_of_branch {s : Shape} (hsized : s.sized = false)
    (hhead : s.head = intBytes (m.int reqType)) (hlengths : s.lengths = [(0, 4)])
    (hafter : s.after = []) (hoperators : s.operators = [])
    (h : ∀ frame c, Replayer.verdict (replayBranch frame c m) =
      if s.before <+: (readBuffer frame c (s.buffer + s.width)).1 then
        .answered
          (bytesInt (((readBuffer frame c (s.buffer + s.width)).1.drop (s.start + s.width)).take 4))
          (m.write s.res (((readBuffer frame c (s.buffer + s.width)).1.drop s.start).take s.width))
      else .rejected) : s.Describes m := by
  refine describes_of_opcode (hhead.trans (List.append_nil _).symm) hlengths fun frame c n hn => ?_
  obtain rfl : n = s.width := by
    rw [hn, size, hsized]
    rfl
  have hbuf : delivered frame c ([] ++ (64, s.buffer + s.width) :: s.operators) =
      (readBuffer frame c (s.buffer + s.width)).1 := by
    rw [hoperators]
    exact List.append_nil _
  rw [hbuf, ← hhead, verdict_of_head hsized, h, hafter]
  simp only [List.nil_prefix, and_true]

/-- The length behind the opcode, as it is read and as the head has it. -/
theorem length_eq_of_head {x a tl : List UInt8} {z : ℤ} (ha : a.length = 4) (hz : IsInt z)
    (h : x ++ intBytes z <+: x ++ (a ++ tl)) : bytesInt a = z := by
  obtain ⟨-, h⟩ := (prefix_append_iff rfl).mp h
  exact (bytesInt_eq_iff ha hz).mpr
    ((prefix_append_iff_eq (by rw [ha, length_intBytes])).mp h)

theorem lengths_eq_of_head {x a b tl : List UInt8} {y z : ℤ} (ha : a.length = 4)
    (hb : b.length = 4) (hy : IsInt y) (hz : IsInt z)
    (h : x ++ (intBytes y ++ intBytes z) <+: x ++ (a ++ (b ++ tl))) :
    bytesInt a = y ∧ bytesInt b = z := by
  obtain ⟨-, h⟩ := (prefix_append_iff rfl).mp h
  have hfirst := (prefix_append_iff (by rw [ha, length_intBytes])).mp h
  exact ⟨(bytesInt_eq_iff ha hy).mpr hfirst.1, length_eq_of_head hb hz
    ((prefix_append_iff rfl).mpr ⟨rfl, hfirst.2⟩ : a ++ intBytes z <+: a ++ (b ++ tl))⟩

/-- Two operands are compared piece by piece. -/
theorem pair_prefix_iff {x y bs : List UInt8} {k l : ℕ} (hx : x.length = k) (hy : y.length = l) :
    x ++ y <+: bs ↔ x = bs.take k ∧ y = (bs.drop k).take l := by
  rw [append_prefix_iff, List.prefix_iff_eq_take, hx, hy, eq_comm]

theorem describes_cmp {w : ℕ}
    (hbranch : ∀ frame c, replayBranch frame c m = replayCmp frame c m w) :
    (cmpShape m w).Describes m := by
  refine Shape.describes_of_branch rfl rfl rfl rfl rfl fun frame c => ?_
  have hbuf : (cmpShape m w).buffer + (cmpShape m w).width =
      sizeofInt * 2 + w * 2 + sizeofUint64 := by
    simp [cmpShape]
    omega
  rw [hbranch, hbuf, replayCmp]
  generalize readBuffer frame c (sizeofInt * 2 + w * 2 + sizeofUint64) = buf
  have hbefore : (cmpShape m w).before <+: buf.1 ↔
      m.read cmpLeft w = buf.1.take w ∧ m.read (cmpRight w) w = (buf.1.drop w).take w :=
    pair_prefix_iff (m.length_read _ _) (m.length_read _ _)
  simp only [rrprintf, verdict_ite, verdict_answer, verdict_retryFailed, ne_eq, ← not_and_or,
    ite_not, hbefore, List.drop_drop]
  simp only [cmpShape, Shape.start, List.length_append, Mem.length_read, Nat.add_zero]

theorem describes_calc {n : Num}
    (hbranch : ∀ frame c, replayBranch frame c m = replayCalc frame c m n.size) :
    (calcShape m n).Describes m := by
  refine Shape.describes_of_branch rfl rfl rfl rfl rfl fun frame c => ?_
  have hbuf : (calcShape m n).buffer + (calcShape m n).width =
      sizeofInt + n.size * 3 + sizeofUint64 := by
    simp [calcShape]
  rw [hbranch, hbuf, replayCalc]
  generalize readBuffer frame c (sizeofInt + n.size * 3 + sizeofUint64) = buf
  have hbefore : (calcShape m n).before <+: buf.1 ↔ buf.1.take n.size = m.read calcLeft n.size ∧
      (buf.1.drop n.size).take n.size = m.read (calcRight n.size) n.size := by
    rw [eq_comm, @eq_comm _ ((buf.1.drop n.size).take n.size)]
    exact pair_prefix_iff (m.length_read _ _) (m.length_read _ _)
  simp only [rrprintf, verdict_ite, verdict_answer, verdict_retryFailed, ne_eq, ← not_and_or,
    ite_not, hbefore, List.drop_drop]
  simp only [calcShape, Shape.start, List.length_append, Mem.length_read, Nat.add_zero]

theorem describes_year (hbranch : ∀ frame c, replayBranch frame c m = replayYear frame c m) :
    (yearShape m).Describes m := by
  refine Shape.describes_of_branch rfl rfl rfl rfl rfl fun frame c => ?_
  have hbuf : (yearShape m).buffer + (yearShape m).width =
      sizeofInt + encTimestampLength + encInt32Length + sizeofUint64 := rfl
  rw [hbranch, hbuf, replayYear]
  generalize readBuffer frame c
    (sizeofInt + encTimestampLength + encInt32Length + sizeofUint64) = buf
  have hbefore : (yearShape m).before <+: buf.1 ↔
      buf.1.take encTimestampLength = m.read yearIn encTimestampLength := by
    rw [List.prefix_iff_eq_take, eq_comm]
    simp only [yearShape, Mem.length_read]
  simp only [rrprintf, verdict_ite, verdict_answer, verdict_retryFailed, ne_eq, ite_not, hbefore,
    List.drop_drop]
  simp only [yearShape, Shape.start, Mem.length_read, Nat.add_zero]

/-- The loop over the items accepts exactly the items of the request. -/
theorem sameItems_iff_read {w : ℕ} (src : List UInt8) (i n : ℕ) (hsrc : src.length = n * w) :
    sameItems m w src i n = true ↔ src = m.read (bulkItems + w * i) (w * n) := by
  induction n generalizing src i with
  | zero =>
    rw [Nat.zero_mul] at hsrc
    simp [sameItems, List.length_eq_zero_iff.mp hsrc]
  | succ n ih =>
    rw [Nat.succ_mul] at hsrc
    have hrest : (src.drop w).length = n * w := by
      rw [List.length_drop]
      omega
    rw [sameItems, Bool.and_eq_true, beq_iff_eq, ih _ _ hrest, Nat.mul_succ w i, Nat.mul_succ w n,
      Nat.add_comm (w * n), Mem.read_add, ← Nat.add_assoc]
    constructor
    · rintro ⟨htake, hdrop⟩
      rw [← htake, ← hdrop, List.take_append_drop]
    · intro heq
      rw [heq]
      exact ⟨List.take_left' (m.length_read _ _), List.drop_left' (m.length_read _ _)⟩

theorem describes_bulk {n : Num} (hsize : 0 ≤ m.int Layout.bulkSize)
    (hbranch : ∀ frame c, replayBranch frame c m = replayBulk frame c m n.size) :
    (bulkShape m n).Describes m := by
  refine Shape.describes_of_opcode rfl rfl fun frame c k hk => ?_
  obtain rfl : k = n.size := hk
  have hbuf : (bulkShape m n).buffer + n.size = sizeofInt * 2 + n.size + sizeofUint64 := by
    simp [bulkShape]
  rw [hbranch, replayBulk]
  change _ = Shape.verdict _ (_ ++ ((readBuffer frame c _).1 ++
    ((readOperators frame (readBuffer frame c _).2 _).1 ++ []))) m
  rw [List.append_nil, hbuf]
  have hlen : (readBuffer frame c (sizeofInt * 2 + n.size + sizeofUint64)).1.length =
      4 + n.size + 12 := by
    simp [readBuffer]
  dsimp only
  generalize (readBuffer frame c (sizeofInt * 2 + n.size + sizeofUint64)).1 = buf at hlen ⊢
  generalize (readBuffer frame c (sizeofInt * 2 + n.size + sizeofUint64)).2 = c₁
  simp only [rrprintf]
  have hfour : (buf.take 4).length = 4 := by
    rw [List.length_take]
    omega
  by_cases hhead : bytesInt (buf.take 4) = m.int Layout.bulkSize
  · have hitems : (readOperators frame c₁ ((m.int Layout.bulkSize).toNat * n.size)).1.length =
        (m.int Layout.bulkSize).toNat * n.size := by simp [readOperators]
    rw [hhead, if_neg (not_not_intro rfl), if_neg (not_lt.mpr hsize)]
    generalize readOperators frame c₁ ((m.int Layout.bulkSize).toNat * n.size) = ops at hitems ⊢
    have hrest : (buf.drop 4).length = n.size + 12 := by
      rw [List.length_drop]
      omega
    have hcut : intBytes (m.int reqType) ++ (buf ++ ops.1) =
        (bulkShape m n).head ++ (buf.drop 4 ++ ops.1) := by
      have hop := (bytesInt_eq_iff hfour (isInt_bytesInt (m.read Layout.bulkSize 4))).mp hhead
      change _ = intBytes (m.int reqType) ++ intBytes (bytesInt (m.read Layout.bulkSize 4)) ++ _
      rw [← hop, List.append_assoc, ← List.append_assoc (buf.take 4), List.take_append_drop]
    have hsame : sameItems m n.size ops.1 0 (m.int Layout.bulkSize).toNat = true ↔
        (bulkShape m n).after <+: ops.1 := by
      rw [sameItems_iff_read _ _ _ hitems, List.prefix_iff_eq_take, eq_comm,
        List.take_of_length_le (by rw [hitems, bulkShape, Mem.length_read, Nat.mul_comm])]
      rfl
    have hafter : (buf.drop 4 ++ ops.1).drop (n.size + 12) = ops.1 := List.drop_left' hrest
    have hresp : ((buf.drop 4 ++ ops.1).drop n.size).take 4 =
        ((buf.drop 4).drop n.size).take 4 := by
      rw [List.drop_append_of_le_length (by omega),
        List.take_append_of_le_length (by rw [List.length_drop]; omega)]
    have hres : (buf.drop 4 ++ ops.1).take n.size = (buf.drop 4).take n.size :=
      List.take_append_of_le_length (by omega)
    rw [hcut, Shape.verdict_of_head rfl]
    simp only [verdict_ite, verdict_answer, verdict_retryFailed, hsame]
    simp only [bulkShape, Shape.start, List.length_nil, Nat.zero_add, List.nil_prefix, true_and,
      hafter, hresp, List.drop_zero, hres]
    exact if_congr Iff.rfl rfl rfl
  · rw [if_pos hhead, Shape.verdict_of_not_head]
    · rfl
    · intro hpre
      rw [← List.take_append_drop 4 buf, List.append_assoc] at hpre
      exact hhead (length_eq_of_head hfour (isInt_bytesInt _) hpre)

theorem describes_strCmp (hl : FitsEncStr (Recorder.sizeAt m cmpLeft))
    (hr : FitsEncStr (Recorder.sizeAt m (cmpRight sizeofEncStr)))
    (hbranch : ∀ frame c, replayBranch frame c m = replayStrCmp frame c m) :
    (strCmpShape m).Describes m := by
  refine Shape.describes_of_opcode rfl rfl fun frame c k hk => ?_
  obtain rfl : k = 4 := hk
  rw [hbranch, replayStrCmp]
  change _ = Shape.verdict _ (_ ++ (_ ++ (_ ++ ((readBuffer frame _ _).1 ++ [])))) m
  rw [List.append_nil]
  have ha : (c.fread (frame.read 8 4)).1.length = 4 := by simp
  dsimp only
  generalize (c.fread (frame.read 8 4)).1 = a at ha ⊢
  generalize (c.fread (frame.read 8 4)).2 = c₁
  have hb : (c₁.fread (frame.read 12 4)).1.length = 4 := by simp
  generalize (c₁.fread (frame.read 12 4)).1 = b at hb ⊢
  generalize (c₁.fread (frame.read 12 4)).2 = c₂
  by_cases hhead : bytesInt a = Recorder.sizeAt m cmpLeft ∧
      bytesInt b = Recorder.sizeAt m (cmpRight sizeofEncStr)
  · obtain ⟨hhl, hhr⟩ := hhead
    obtain rfl := (bytesInt_eq_iff ha (isInt_sizeAt m _)).mp hhl
    obtain rfl := (bytesInt_eq_iff hb (isInt_sizeAt m _)).mp hhr
    have hbuf : (Recorder.sizeAt m cmpLeft).toNat +
        (Recorder.sizeAt m (cmpRight sizeofEncStr)).toNat + sizeofInt * 2 + sizeofUint64 =
        (strCmpShape m).buffer + 4 := rfl
    rw [hhl, hhr, if_neg (by simp only [ne_eq, not_true_eq_false, or_self, not_false_eq_true]),
      if_neg (by simp only [hl, hr, not_true_eq_false, or_self, not_false_eq_true]), hbuf,
      ← List.append_assoc (intBytes (Recorder.sizeAt m cmpLeft)), ← List.append_assoc]
    generalize readBuffer frame c₂ ((strCmpShape m).buffer + 4) = buf
    refine Eq.trans ?_ (Shape.verdict_of_head (s := strCmpShape m) rfl buf.1).symm
    simp only [rrprintf, verdict_answer, strCmpShape, Shape.start, List.nil_prefix, and_self,
      if_true, List.length_nil, Nat.zero_add, List.drop_drop]
  · rw [if_pos (not_and_or.mp hhead), Shape.verdict_of_not_head]
    · rfl
    · exact fun hpre => hhead (lengths_eq_of_head ha hb (isInt_sizeAt m _) (isInt_sizeAt m _) hpre)

theorem triple_prefix_iff {x y z bs : List UInt8} {k l n : ℕ} (hx : x.length = k)
    (hy : y.length = l) (hz : z.length = n) :
    x ++ (y ++ z) <+: bs ↔
      x = bs.take k ∧ y = (bs.drop k).take l ∧ z = ((bs.drop k).drop l).take n := by
  rw [append_prefix_iff, pair_prefix_iff hy hz, hx, eq_comm]

theorem describes_substring (hs : FitsEncStr (Recorder.sizeAt m subStr))
    (hbranch : ∀ frame c, replayBranch frame c m = replaySubstring frame c m) :
    (substringShape m).Describes m := by
  refine Shape.describes_of_opcode rfl rfl fun frame c k hk => ?_
  rw [hbranch, replaySubstring]
  revert hk
  change k = (Shape.size _ (_ ++ (_ ++ (_ ++ ((readBuffer frame _ _).1 ++ []))))).toNat →
    _ = Shape.verdict _ (_ ++ (_ ++ (_ ++ ((readBuffer frame _ _).1 ++ [])))) m
  rw [List.append_nil]
  intro hk
  have ha : (c.fread (frame.read 8 4)).1.length = 4 := by simp
  dsimp only
  generalize (c.fread (frame.read 8 4)).1 = a at ha hk ⊢
  generalize (c.fread (frame.read 8 4)).2 = c₁ at hk ⊢
  have hb : (c₁.fread (frame.read 12 4)).1.length = 4 := by simp
  generalize (c₁.fread (frame.read 12 4)).1 = b at hb hk ⊢
  generalize (c₁.fread (frame.read 12 4)).2 = c₂ at hk ⊢
  by_cases hhead : bytesInt a = Recorder.sizeAt m subStr
  · obtain rfl := (bytesInt_eq_iff ha (isInt_sizeAt m _)).mp hhead
    rw [← List.append_assoc] at hk ⊢
    obtain rfl : k = (bytesInt b).toNat :=
      hk.trans (congrArg Int.toNat (Shape.size_of_head (s := substringShape m) rfl hb _))
    have hbuf : (Recorder.sizeAt m subStr).toNat + (bytesInt b).toNat + sizeofInt +
        encInt32Length * 2 + sizeofUint64 = (substringShape m).buffer + (bytesInt b).toNat := by
      simp only [substringShape, sizeofInt, sizeofUint64]
      omega
    rw [hhead, if_neg (not_not_intro rfl), hbuf]
    refine Eq.trans ?_ (Shape.verdict_of_size (s := substringShape m) rfl hb _).symm
    generalize readBuffer frame c₂ ((substringShape m).buffer + (bytesInt b).toNat) = buf
    have hbefore : (substringShape m).before <+: buf.1 ↔
        buf.1.take (Recorder.sizeAt m subStr).toNat =
          m.read subStr (Recorder.sizeAt m subStr).toNat ∧
        (buf.1.drop (Recorder.sizeAt m subStr).toNat).take encInt32Length =
          m.read subStart encInt32Length ∧
        ((buf.1.drop (Recorder.sizeAt m subStr).toNat).drop encInt32Length).take encInt32Length =
          m.read subLength encInt32Length := by
      rw [eq_comm, @eq_comm _ _ (m.read subStart _), @eq_comm _ _ (m.read subLength _)]
      exact triple_prefix_iff (m.length_read _ _) (m.length_read _ _) (m.length_read _ _)
    have hstart : (substringShape m).start =
        (Recorder.sizeAt m subStr).toNat + encInt32Length + encInt32Length := by
      simp only [Shape.start, substringShape, encStrAt, List.length_append, Mem.length_read]
      omega
    have hafter : (substringShape m).after = [] := rfl
    simp only [hs, hstart, hafter, rrprintf, verdict_ite, verdict_answer, verdict_retryFailed,
      verdict_fault, ne_eq, not_true_eq_false, false_or, ite_not, ← not_and_or, hbefore,
      List.drop_drop, List.nil_prefix, and_true]
    exact if_congr Iff.rfl (if_congr Iff.rfl rfl rfl) rfl
  · rw [if_pos hhead, Shape.verdict_of_not_head]
    · rfl
    · exact fun hpre => hhead (length_eq_of_head ha (isInt_sizeAt m _) hpre)

theorem describes_concat (hl : FitsEncStr (Recorder.sizeAt m calcLeft))
    (hr : FitsEncStr (Recorder.sizeAt m (calcRight sizeofEncStr)))
    (hbranch : ∀ frame c, replayBranch frame c m = replayConcat frame c m) :
    (concatShape m).Describes m := by
  refine Shape.describes_of_opcode rfl rfl fun frame c k hk => ?_
  rw [hbranch, replayConcat]
  revert hk
  change k = (Shape.size _ (_ ++ (_ ++ (_ ++ (_ ++ ((readBuffer frame _ _).1 ++ [])))))).toNat →
    _ = Shape.verdict _ (_ ++ (_ ++ (_ ++ (_ ++ ((readBuffer frame _ _).1 ++ []))))) m
  rw [List.append_nil]
  intro hk
  have ha : (c.fread (frame.read 8 4)).1.length = 4 := by simp
  dsimp only
  generalize (c.fread (frame.read 8 4)).1 = a at ha hk ⊢
  generalize (c.fread (frame.read 8 4)).2 = c₁ at hk ⊢
  have hb : (c₁.fread (frame.read 12 4)).1.length = 4 := by simp
  generalize (c₁.fread (frame.read 12 4)).1 = b at hb hk ⊢
  generalize (c₁.fread (frame.read 12 4)).2 = c₂ at hk ⊢
  have hd : (c₂.fread (frame.read 16 4)).1.length = 4 := by simp
  generalize (c₂.fread (frame.read 16 4)).1 = d at hd hk ⊢
  generalize (c₂.fread (frame.read 16 4)).2 = c₃ at hk ⊢
  by_cases hhead : bytesInt a = Recorder.sizeAt m calcLeft ∧
      bytesInt b = Recorder.sizeAt m (calcRight sizeofEncStr)
  · obtain ⟨hhl, hhr⟩ := hhead
    obtain rfl := (bytesInt_eq_iff ha (isInt_sizeAt m _)).mp hhl
    obtain rfl := (bytesInt_eq_iff hb (isInt_sizeAt m _)).mp hhr
    rw [← List.append_assoc (intBytes (Recorder.sizeAt m calcLeft)), ← List.append_assoc] at hk ⊢
    obtain rfl : k = (bytesInt d).toNat :=
      hk.trans (congrArg Int.toNat (Shape.size_of_head (s := concatShape m) rfl hd _))
    have hbuf : sizeofInt + (Recorder.sizeAt m calcLeft).toNat +
        (Recorder.sizeAt m (calcRight sizeofEncStr)).toNat + (bytesInt d).toNat + sizeofUint64 =
        (concatShape m).buffer + (bytesInt d).toNat := by
      simp only [concatShape, sizeofInt, sizeofUint64]
      omega
    rw [hhl, hhr, if_neg (by simp only [ne_eq, not_true_eq_false, or_self, not_false_eq_true]),
      hbuf]
    refine Eq.trans ?_ (Shape.verdict_of_size (s := concatShape m) rfl hd _).symm
    generalize readBuffer frame c₃ ((concatShape m).buffer + (bytesInt d).toNat) = buf
    have hbefore : (concatShape m).before <+: buf.1 ↔
        buf.1.take (Recorder.sizeAt m calcLeft).toNat =
          m.read calcLeft (Recorder.sizeAt m calcLeft).toNat ∧
        (buf.1.drop (Recorder.sizeAt m calcLeft).toNat).take
            (Recorder.sizeAt m (calcRight sizeofEncStr)).toNat =
          m.read (calcRight sizeofEncStr) (Recorder.sizeAt m (calcRight sizeofEncStr)).toNat := by
      rw [eq_comm, @eq_comm _ _ (m.read (calcRight _) _)]
      exact pair_prefix_iff (m.length_read _ _) (m.length_read _ _)
    have hstart : (concatShape m).start = (Recorder.sizeAt m calcLeft).toNat +
        (Recorder.sizeAt m (calcRight sizeofEncStr)).toNat := by
      simp only [Shape.start, concatShape, encStrAt, List.length_append, Mem.length_read]
      omega
    have hafter : (concatShape m).after = [] := rfl
    simp only [hl, hr, hstart, hafter, rrprintf, verdict_ite, verdict_answer, verdict_retryFailed,
      verdict_fault, ne_eq, not_true_eq_false, false_or, ite_not, ← not_and_or, hbefore,
      List.drop_drop, List.nil_prefix, and_true]
    exact if_congr Iff.rfl (if_congr Iff.rfl rfl rfl) rfl
  · rw [if_pos (not_and_or.mp hhead), Shape.verdict_of_not_head]
    · rfl
    · exact fun hpre => hhead (lengths_eq_of_head ha hb (isInt_sizeAt m _) (isInt_sizeAt m _) hpre)

theorem fitsEncStr_of_in {q : Request} (h : q.In m) {o : ℕ} {s : EncStr}
    (hs : copyEnc o s ⊆ q.body) : FitsEncStr (Recorder.sizeAt m o) := by
  rw [h.sizeAt hs]
  exact fitsEncStr_size s

/-- **The shape of a logged request describes `replay_request` on it.** -/
theorem describes_shapeOf {q : Request} (h : q.In m) (hq : q.Logged) :
    (shapeOf m q).Describes m := by
  have ht := h.reqType
  cases q with
  | cmp f left right => exact describes_cmp fun frame c => replayBranch_cmp ht
  | calcNum n op left right => exact describes_calc fun frame c => replayBranch_calc ht
  | bulk n items hn =>
    exact describes_bulk (h.bulkSize ▸ Int.natCast_nonneg _) fun frame c => replayBranch_bulk ht
  | extractYear input => exact describes_year fun frame c => replayBranch_year ht
  | strCmp left right =>
    exact describes_strCmp (fitsEncStr_of_in h (List.subset_append_left _ _))
      (fitsEncStr_of_in h (List.subset_append_right _ _))
      fun frame c => replayBranch_strCmp (.inl rfl) ht
  | strLike left right =>
    exact describes_strCmp (fitsEncStr_of_in h (List.subset_append_left _ _))
      (fitsEncStr_of_in h (List.subset_append_right _ _))
      fun frame c => replayBranch_strCmp (.inr rfl) ht
  | substring str start length =>
    exact describes_substring (fitsEncStr_of_in h (List.subset_append_left _ _))
      fun frame c => replayBranch_substring ht
  | concat left right =>
    exact describes_concat
      (fitsEncStr_of_in h (List.Subset.trans (List.subset_append_left _ _)
        (List.subset_cons_self _ _)))
      (fitsEncStr_of_in h (List.Subset.trans (List.subset_append_right _ _)
        (List.subset_cons_self _ _)))
      fun frame c => replayBranch_concat ht
  | enc | dec | strEnc | strDec | evalExpr => exact hq.elim

end Describes

end Replayer

end HEDB
