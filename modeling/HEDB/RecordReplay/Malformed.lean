import HEDB.RecordReplay.Described
import HEDB.RecordReplay.Rejections
import HEDB.RecordReplay.Retrieval

/-!
# Malformed logs

Two readers take a log from a file: `replay_request`, which compares it with a request, and
`retrieve_request_from_file` of the anonymizer, which has nothing to compare it with. Neither looks
at the return value of `fread`. `retrieve_request_from_file` handles a log safely exactly if the log
reaches to the end of the operands and its lengths keep the copies inside the two buffers
(`safe_iff_protected`), and `rejectsMalformed_iff` puts the two readers together.
-/

namespace HEDB

open Layout

namespace Desenitizer

section Branches

variable {P : Mem → Prop} {c : Cursor} {m : Mem} {bs : List UInt8}

/-! ## The bulk sums read the items over the start of the record -/

/-- The items of a bulk sum, as they stand in the read buffer. -/
def bulkSource (frame : Mem) (c : Cursor) (w n : ℕ) : List UInt8 :=
  ((c.fread (frame.read 64 (sizeofInt * 2 + w + sizeofUint64))).2.fread
    ((frame.write 64 (c.fread (frame.read 64 (sizeofInt * 2 + w + sizeofUint64))).1).read 64 n)).1

theorem length_bulkSource (frame : Mem) (c : Cursor) (w n : ℕ) :
    (bulkSource frame c w n).length = n := by
  rw [bulkSource, Cursor.length_fread, Mem.length_read]

/-- The bytes of the items, one by one: from the log, from what was read before, or from the
stack. -/
theorem getElem?_bulkSource (frame : Mem) (c : Cursor) (w : ℕ) {n i : ℕ} (hi : i < n) :
    (bulkSource frame c w n)[i]? =
      if i < c.rest.length - (16 + w) then (c.rest.drop (16 + w))[i]?
      else if i < min c.rest.length (16 + w) then c.rest[i]? else some (frame (64 + i)) := by
  have hsize : sizeofInt * 2 + w + sizeofUint64 = 16 + w := by
    simp only [sizeofInt, sizeofUint64]
    omega
  have hread (f : Mem) (k : ℕ) (hk : i < k) : (f.read 64 k)[i]? = some (f (64 + i)) := by
    simp [Mem.read, hk]
  rw [bulkSource, hsize, Cursor.getElem?_fread _ (by rw [Mem.length_read]; exact hi),
    Cursor.rest_fread, Mem.length_read, List.length_drop, hread _ n hi]
  split
  · rfl
  · -- behind the end of the log the buffer still holds the first read
    by_cases hfirst : i < 16 + w
    · have hsrc : i < (c.fread (frame.read 64 (16 + w))).1.length := by
        rwa [Cursor.length_fread, Mem.length_read]
      have hget : (c.fread (frame.read 64 (16 + w))).1[i]? =
          if i < c.rest.length then c.rest[i]? else (frame.read 64 (16 + w))[i]? :=
        Cursor.getElem?_fread c (by rwa [Mem.length_read])
      rw [List.getElem?_eq_getElem hsrc, hread _ _ hfirst] at hget
      rw [Mem.write_apply_of_mem hsrc, hget]
      by_cases hlog : i < c.rest.length
      · rw [if_pos hlog, if_pos (by omega)]
      · rw [if_neg hlog, if_neg (by omega)]
    · rw [if_neg (by omega), Mem.write_apply_of_not]
      rw [Cursor.length_fread, Mem.length_read]
      omega

/-- The items of `n` ciphertexts of `w` bytes, as fields of the request. -/
def itemFields (w i n : ℕ) : List (ℕ × ℕ) :=
  (List.range' i n).map fun j => (bulkItems + w * j, w)

theorem total_itemFields (w i n : ℕ) : total (itemFields w i n) = n * w := by
  simp [total, itemFields, Function.comp_def]

theorem copyItems_eq (w : ℕ) (src : List UInt8) (i n : ℕ) (m : Mem) :
    copyItems w src i n m = copyPieces m src (itemFields w i n) := by
  induction n generalizing src i m with
  | zero => rfl
  | succ n ih =>
    rw [copyItems, ih, itemFields, itemFields, List.range'_succ, List.map_cons, copyPieces]

theorem retrieveBulk_of_le (frame : Mem) (w : ℕ) (h : 4 ≤ c.rest.length) :
    ∃ c' c'' m', retrieveBulk frame c m w =
      if BulkFits w (intAt c.rest 0) then
        (.returned 0, c', copyPieces (m.write Layout.bulkSize (c.rest.take 4))
          (bulkSource frame c w ((intAt c.rest 0).toNat * w))
          (itemFields w 0 (intAt c.rest 0).toNat))
      else (.fault, c'', m') := by
  have hlen : (c.fread (frame.read 64 (sizeofInt * 2 + w + sizeofUint64))).1.length =
      16 + w := by
    rw [Cursor.length_fread, Mem.length_read]
    simp only [sizeofInt, sizeofUint64]
    omega
  have htake : (c.fread (frame.read 64 (sizeofInt * 2 + w + sizeofUint64))).1.take 4 =
      c.rest.take 4 := (c.agrees_fread _).take_eq h (by omega)
  have hint : (m.write Layout.bulkSize (c.rest.take 4)).int Layout.bulkSize =
      intAt c.rest 0 := by
    rw [Mem.int, Mem.read_write_of_length _ _ _ _ (by rw [List.length_take]; omega)]
    rfl
  refine ⟨((c.fread (frame.read 64 (sizeofInt * 2 + w + sizeofUint64))).2.fread
    ((frame.write 64 (c.fread (frame.read 64 (sizeofInt * 2 + w + sizeofUint64))).1).read 64
      ((intAt c.rest 0).toNat * w))).2,
    (c.fread (frame.read 64 (sizeofInt * 2 + w + sizeofUint64))).2,
    m.write Layout.bulkSize (c.rest.take 4), ?_⟩
  simp only [retrieveBulk, htake, hint, copyItems_eq]
  refine (if_congr ?_ rfl rfl).trans (ite_not ..)
  simp only [BulkFits]
  omega

/-- The size of a bulk sum has to be in the log. -/
theorem le_of_safeOn_bulk {w : ℕ} (hbs : bs.length = 4)
    (h : SafeOn (Opcode bs) fun frame => retrieveBulk frame c m w) : 4 ≤ c.rest.length := by
  by_contra hshort
  have hthree : (filled c.rest 3).length = 3 := length_filled _ _
  set xs := filled c.rest 3 ++ ([128] ++ List.replicate (12 + w) 0)
  have hxs : xs.length = sizeofInt * 2 + w + sizeofUint64 := by
    simp only [xs, List.length_append, hthree, List.length_singleton, List.length_replicate,
      sizeofInt, sizeofUint64]
    omega
  obtain ⟨frame, hop, hread⟩ := exists_opcode hbs (o := 64) (by decide) xs
  have hagree : Agrees c.rest xs := agrees_filled_append (by omega) _
  have htake : xs.take 4 = filled c.rest 3 ++ [128] := by
    rw [show xs = filled c.rest 3 ++ [128] ++ List.replicate (12 + w) 0 by
      rw [List.append_assoc]]
    exact List.take_left' (by rw [List.length_append, hthree]; rfl)
  refine h.noFault frame hop ?_
  rw [hxs] at hread
  simp only [retrieveBulk, hread, Cursor.fread_of_agrees hagree, htake]
  have hneg : (m.write Layout.bulkSize (filled c.rest 3 ++ [128])).int Layout.bulkSize < 0 := by
    rw [Mem.int, Mem.read_write_of_length _ _ _ _ (by rw [List.length_append, hthree]; rfl)]
    exact bytesInt_neg hthree
  rw [if_pos (.inl hneg)]

/-- The bytes of the items that are from the log do not depend on the stack. -/
theorem bulkSource_eq (frame frame' : Mem) {w n : ℕ}
    (h : n ≤ c.rest.length - (16 + w) ∨ n ≤ min c.rest.length (16 + w)) :
    bulkSource frame c w n = bulkSource frame' c w n := by
  apply List.ext_getElem?
  intro i
  by_cases hi : i < n
  · rw [getElem?_bulkSource _ _ _ hi, getElem?_bulkSource _ _ _ hi]
    split
    · rfl
    · rw [if_pos (by omega), if_pos (by omega)]
  · rw [List.getElem?_eq_none (by rw [length_bulkSource]; omega),
      List.getElem?_eq_none (by rw [length_bulkSource]; omega)]

theorem safeOn_bulk (w : ℕ) :
    (BulkProtected w c.rest → SafeOn P fun frame => retrieveBulk frame c m w) ∧
      (bs.length = 4 → SafeOn (Opcode bs) (fun frame => retrieveBulk frame c m w) →
        BulkProtected w c.rest) := by
  constructor
  · rintro ⟨hsize, hfits, hle⟩
    have hF (frame : Mem) := retrieveBulk_of_le (m := m) frame w hsize
    simp only [if_pos hfits] at hF
    constructor
    · intro frame _ hfault
      obtain ⟨c', c'', m', h⟩ := hF frame
      rw [h] at hfault
      cases hfault
    · intro frame frame' _ _ _ _
      obtain ⟨c', c'', m', h⟩ := hF frame
      obtain ⟨d', d'', n', h'⟩ := hF frame'
      rw [h, h', bulkSource_eq frame frame' hle]
  · intro hbs h
    have hsize : 4 ≤ c.rest.length := le_of_safeOn_bulk hbs h
    have hF (frame : Mem) := retrieveBulk_of_le (m := m) frame w hsize
    have hfits : BulkFits w (intAt c.rest 0) := by
      by_contra hfits
      simp only [if_neg hfits] at hF
      obtain ⟨frame, hop, -⟩ := exists_opcode hbs (le_refl 4) []
      obtain ⟨c', c'', m', hfault⟩ := hF frame
      exact h.noFault frame hop (by rw [hfault])
    refine ⟨hsize, hfits, ?_⟩
    simp only [if_pos hfits] at hF
    by_contra hle
    rw [not_or] at hle
    set n := (intAt c.rest 0).toNat * w
    have key (b : UInt8) : ∃ frame, Opcode bs frame ∧
        (bulkSource frame c w n)[n - 1]? = some b := by
      obtain ⟨frame, hop, hread⟩ := exists_opcode hbs (o := 64 + (n - 1)) (by omega) [b]
      refine ⟨frame, hop, ?_⟩
      have hbyte : frame (64 + (n - 1)) = b := by simpa [Mem.read] using hread
      rw [getElem?_bulkSource _ _ _ (by omega), if_neg (by omega), if_neg (by omega), hbyte]
    obtain ⟨frame, hop, hb⟩ := key 0
    obtain ⟨frame', hop', hb'⟩ := key 1
    obtain ⟨c', c'', m', hc⟩ := hF frame
    obtain ⟨d', d'', n', hd⟩ := hF frame'
    have heq := h.fromLog frame frame' hop hop' (by rw [hc]) (by rw [hd])
    rw [hc, hd] at heq
    have hlast := getElem?_of_copyPieces heq (by rw [total_itemFields]; omega)
      (by rw [total_itemFields, length_bulkSource]) (by rw [total_itemFields, length_bulkSource])
    rw [total_itemFields, hb, hb'] at hlast
    cases hlast

/-- **A branch is safe exactly if the log is protected behind the opcode.** -/
theorem safeOn_branch (P : Mem → Prop) (bs : List UInt8) (k : Cmd) :
    (BranchProtected c.rest k → SafeOn P fun frame => retrieveBranch frame c m (some k)) ∧
      (bs.length = 4 → SafeOn (Opcode bs) (fun frame => retrieveBranch frame c m (some k)) →
        BranchProtected c.rest k) := by
  cases k
  all_goals simp only [retrieveBranch, BranchProtected]
  case intCmp => exact safeOn_cmp _
  case floatCmp => exact safeOn_cmp _
  case timestampCmp => exact safeOn_cmp _
  case intPlus | intMinus | intMult | intDiv | intPow | intMod => exact safeOn_calc _
  case floatPlus | floatMinus | floatMult | floatDiv | floatPow | floatMod =>
    exact safeOn_calc _
  case intSumBulk => exact safeOn_bulk _
  case floatSumBulk => exact safeOn_bulk _
  case timestampExtractYear => exact safeOn_year
  case stringCmp | stringLike => exact safeOn_strCmp
  case stringSubstring => exact safeOn_substring
  case stringConcat => exact safeOn_concat
  all_goals
    refine ⟨fun _ => ⟨fun frame _ h => ?_, fun frame frame' _ _ _ _ => rfl⟩, fun _ _ => trivial⟩
    cases h

/-- An opcode with a branch that returns needs more than the opcode. -/
theorem exited_of_branchProtected {frame : Mem} {k : Cmd} (h : BranchProtected [] k) :
    (retrieveBranch frame c m (some k)).1 = .exited := by
  cases k with
  | intEnc | intDec | floatEnc | floatDec | floatEvalExpr | stringEnc | stringDec | timestampEnc
  | timestampDec => rfl
  | intSumBulk | floatSumBulk | stringCmp | stringLike | stringSubstring | stringConcat =>
    exact absurd h.1 (by decide)
  | timestampExtractYear => exact absurd (show encTimestampLength ≤ 0 from h) (by decide)
  | timestampCmp => exact absurd (show encTimestampLength * 2 ≤ 0 from h) (by decide)
  | _ => exact absurd (show 32 * 2 ≤ 0 from h) (by decide)

end Branches

/-! ## The whole reader -/

section Reader

variable {c : Cursor}

/-- The cursor after the opcode. -/
def afterOpcode (c : Cursor) : Cursor := c.advance (c.rest.take 4).length

theorem rest_afterOpcode (c : Cursor) : (afterOpcode c).rest = c.rest.drop 4 :=
  (c.rest_fread (Mem.zero.read 0 4)).trans (by rw [Mem.length_read])

theorem retrieve_eq_ite (frame m : Mem) (hc : c.rest ≠ []) : retrieve frame c m =
    let op := bytesInt (c.fread (frame.read 0 4)).1
    if op = 0 then (.returned (-2), afterOpcode c, m)
    else retrieveBranch frame (afterOpcode c) (m.setInt reqType op) (Cmd.ofCode op) := by
  have hbytes : ¬ (c.rest.take 4).length < 1 := by
    have := List.length_pos_of_ne_nil hc
    rw [List.length_take]
    omega
  have hcursor : (c.fread (frame.read 0 4)).2 = afterOpcode c := by
    simp only [Cursor.fread, Mem.length_read]
    rfl
  simp only [retrieve, if_neg hbytes, hcursor]

/-- Unless the log is at its end, the opcode says how it goes on. -/
theorem retrieve_of_ne (frame m : Mem) (hc : c.rest ≠ []) :
    (retrieve frame c m).1 = .returned (-2) ∨ (retrieve frame c m).1 = .exited ∨
      ∃ k : Cmd, (c.fread (frame.read 0 4)).1 = intBytes k.code ∧ retrieve frame c m =
        retrieveBranch frame (afterOpcode c) (m.setInt reqType k.code) (some k) := by
  have hlen : (c.fread (frame.read 0 4)).1.length = 4 := by
    rw [Cursor.length_fread, Mem.length_read]
  rw [retrieve_eq_ite frame m hc]
  by_cases hzero : bytesInt (c.fread (frame.read 0 4)).1 = 0
  · exact .inl (by rw [if_pos hzero])
  · simp only [if_neg hzero]
    rcases ho : Cmd.ofCode (bytesInt (c.fread (frame.read 0 4)).1) with _ | k
    · exact .inr (.inl rfl)
    · have hk := Cmd.code_of_ofCode ho
      exact .inr (.inr ⟨k, (bytesInt_eq_iff hlen k.isInt_code).mp hk, by rw [hk]⟩)

theorem retrieve_of_opcode {k : Cmd} {frame : Mem} (m : Mem) (hc : c.rest ≠ [])
    (hop : Opcode (intBytes k.code) frame) (hk : Agrees c.rest (intBytes k.code)) :
    retrieve frame c m =
      retrieveBranch frame (afterOpcode c) (m.setInt reqType k.code) (some k) := by
  have hread : (c.fread (frame.read 0 4)).1 = intBytes k.code := by
    rw [hop, Cursor.fread_of_agrees hk]
  rw [retrieve_eq_ite frame m hc, hread, bytesInt_intBytes k.isInt_code, if_neg k.code_pos.ne',
    Cmd.ofCode_code]

theorem protected_of_safe (h : Safe c) : Protected c.rest := by
  intro hc k hk
  have hbranch : SafeOn (Opcode (intBytes k.code)) fun frame =>
      retrieveBranch frame (afterOpcode c) (Mem.zero.setInt reqType k.code) (some k) := by
    constructor
    · intro frame hop
      rw [← retrieve_of_opcode Mem.zero hc hop hk]
      exact (h Mem.zero).noFault frame trivial
    · intro frame frame' hop hop'
      rw [← retrieve_of_opcode Mem.zero hc hop hk, ← retrieve_of_opcode Mem.zero hc hop' hk]
      exact (h Mem.zero).fromLog frame frame' trivial trivial
  rw [← rest_afterOpcode]
  exact (safeOn_branch (fun _ => True) _ k).2 (length_intBytes _) hbranch

theorem safe_of_protected (h : Protected c.rest) : Safe c := by
  intro m
  by_cases hc : c.rest = []
  · have hend (frame : Mem) : (retrieve frame c m).1 = .returned (-1) := by
      simp [retrieve, hc]
    constructor
    · intro frame _ hfault
      rw [hend] at hfault
      cases hfault
    · intro frame frame' _ _ hret
      rw [hend] at hret
      cases hret
  -- a returned request comes from the branch of an opcode that is protected
  have hbranch (k : Cmd) (hk : Agrees c.rest (intBytes k.code)) : SafeOn (fun _ => True)
      fun frame => retrieveBranch frame (afterOpcode c) (m.setInt reqType k.code) (some k) :=
    (safeOn_branch _ [] k).1 (by rw [rest_afterOpcode]; exact h hc k hk)
  constructor
  · intro frame _ hfault
    rcases retrieve_of_ne frame m hc with hend | hexit | ⟨k, hop, hr⟩
    · rw [hend] at hfault
      cases hfault
    · rw [hexit] at hfault
      cases hfault
    · rw [hr] at hfault
      exact (hbranch k (hop ▸ c.agrees_fread _)).noFault frame trivial hfault
  · intro frame frame' _ _ hret hret'
    rcases retrieve_of_ne frame m hc with hend | hexit | ⟨k, hop, hr⟩
    · rw [hend] at hret
      cases hret
    · rw [hexit] at hret
      cases hret
    rcases retrieve_of_ne frame' m hc with hend | hexit | ⟨k', hop', hr'⟩
    · rw [hend] at hret'
      cases hret'
    · rw [hexit] at hret'
      cases hret'
    have hk : Agrees c.rest (intBytes k.code) := hop ▸ c.agrees_fread _
    have hfour : 4 ≤ c.rest.length := by
      by_contra hshort
      have hnil : BranchProtected [] k := by
        rw [← List.drop_eq_nil_of_le (not_le.mp hshort).le]
        exact h hc k hk
      rw [hr, exited_of_branchProtected hnil] at hret
      cases hret
    obtain rfl : k = k' := by
      have hread (f : Mem) : (c.fread (f.read 0 4)).1 = c.rest.take 4 := by
        rw [fread_length hfour]
      rw [hread] at hop hop'
      have hcode := congrArg bytesInt (hop.symm.trans hop')
      rw [bytesInt_intBytes k.isInt_code, bytesInt_intBytes k'.isInt_code] at hcode
      exact Cmd.code_injective hcode
    rw [hr] at hret
    rw [hr'] at hret'
    rw [hr, hr']
    exact (hbranch k hk).fromLog frame frame' trivial trivial hret hret'

/-- **The anonymizer handles a log safely exactly if it is protected.** -/
theorem safe_iff_protected : Safe c ↔ Protected c.rest := ⟨protected_of_safe, safe_of_protected⟩

end Reader

end Desenitizer

/-! ## The replayer on a request -/

namespace Replayer

/-- The log is protected against the request in the buffer. An expression has no record, so that a
log that can start with its opcode answers it with an uninitialised `resp`. -/
def Protected (m : Mem) (rest : List UInt8) : Request → Prop
  | .evalExpr _ _ _ => ¬ Agrees rest (intBytes Cmd.floatEvalExpr.code)
  | q => (shapeOf m q).Protected rest

variable {c : Cursor} {m : Mem}

theorem safe_evalExpr_iff (ht : m.int reqType = Cmd.floatEvalExpr.code) :
    Safe c m ↔ ¬ Agrees c.rest (intBytes Cmd.floatEvalExpr.code) := by
  have hbranch (frame : Mem) (c : Cursor) :
      verdict (replayBranch frame c m) = .answered (bytesInt (frame.read 4 4)) m := by
    simp only [replayBranch, ht]
    rfl
  have hverdict (frame : Mem) (p : ℤ) := verdict_replayRequest (m := m) frame c p
  simp only [hbranch, ht] at hverdict
  constructor
  · intro hsafe hagree
    have key (b : UInt8) : ∃ frame, ∀ p, verdict (replayRequest frame c m p) =
        .answered (bytesInt [b, 0, 0, 0]) m := by
      obtain ⟨frame, hop, hread⟩ := Desenitizer.exists_opcode
        (length_intBytes Cmd.floatEvalExpr.code) (le_refl 4) [b, 0, 0, 0]
      refine ⟨frame, fun p => ?_⟩
      have hcode : (c.fread (frame.read 0 4)).1 = intBytes Cmd.floatEvalExpr.code := by
        rw [hop, Cursor.fread_of_agrees hagree]
      rw [hverdict, if_pos hcode, ← hread]
      rfl
    obtain ⟨frame, h₀⟩ := key 0
    obtain ⟨frame', h₁⟩ := key 1
    obtain ⟨hv, -⟩ := hsafe.fromLog frame frame' 0 0 _ _ _ _ (h₀ 0) (h₁ 0)
    exact absurd hv (by decide)
  · intro hagree
    have hreject (frame : Mem) (p : ℤ) : verdict (replayRequest frame c m p) = .rejected := by
      have hcode : (c.fread (frame.read 0 4)).1 ≠ intBytes Cmd.floatEvalExpr.code :=
        fun hcode => hagree (hcode ▸ c.agrees_fread _)
      rw [hverdict, if_neg hcode]
    constructor
    · intro frame p h
      rw [hreject] at h
      cases h
    · intro frame frame' p p' v v' b b' h
      rw [hreject] at h
      cases h

theorem safe_iff_protected {q : Request} (h : q.In m) (hq : ¬ NotReplayed q.cmd.code) :
    Safe c m ↔ Protected m c.rest q := by
  cases q with
  | evalExpr items expr hn => exact safe_evalExpr_iff h.reqType
  | enc f plaintext => exact absurd (by cases f <;> simp [NotReplayed, Request.cmd, Fam.encCmd]) hq
  | dec f ciphertext => exact absurd (by cases f <;> simp [NotReplayed, Request.cmd, Fam.decCmd]) hq
  | strEnc plaintext => exact absurd (by simp [NotReplayed, Request.cmd]) hq
  | strDec ciphertext => exact absurd (by simp [NotReplayed, Request.cmd]) hq
  | _ => exact Shape.safe_iff_protected (wellFormed_shapeOf m _) (describes_shapeOf h trivial)

end Replayer

/-! ## Both readers -/

/-- **Which logs the two readers reject or answer from their own bytes**, whatever their stacks
hold. -/
theorem rejectsMalformed_iff (c : Cursor) (q : Request) (m : Mem) (h : q.In m)
    (hq : ¬ Replayer.NotReplayed q.cmd.code) :
    (Replayer.Safe c m ↔ Replayer.Protected m c.rest q) ∧
      (Desenitizer.Safe c ↔ Desenitizer.Protected c.rest) :=
  ⟨Replayer.safe_iff_protected h hq, Desenitizer.safe_iff_protected⟩

open Replayer in
/-- A whole record is handled safely by both. -/
theorem rejectsMalformed_plusRecord :
    Replayer.Safe ⟨samplePlus.encoding, 0⟩ samplePlus.buf ∧
      Desenitizer.Safe ⟨samplePlus.encoding, 0⟩ := by
  have hreq : ¬ NotReplayed samplePlus.req.cmd.code := by decide
  have h := rejectsMalformed_iff ⟨samplePlus.encoding, 0⟩ samplePlus.req samplePlus.buf
    samplePlus.holds hreq
  refine ⟨h.1.mpr ?_, h.2.mpr fun _ k hk => ?_⟩
  · have hprotected : (calcShape samplePlus.buf .int).Protected
        (Cursor.mk samplePlus.encoding 0).rest := by decide
    exact hprotected
  · have hlen : 32 * 2 ≤ ((Cursor.mk samplePlus.encoding 0).rest.drop 4).length := by decide
    cases k with
    | intPlus => exact hlen
    | _ => exact absurd hk (by decide)

/-- The opcode of a sum and nothing else. -/
def opcodeOnly : Cursor := ⟨intBytes Cmd.intPlus.code, 0⟩

/-- A stack that goes on with the operands of `samplePlus`, a result and the answer `v`. -/
def stackAnswer (v : ℤ) : Mem := Mem.zero.write (64 + 96) (intBytes v)

/-- **Two readers that make up an answer**: after the opcode of a sum the log ends. The replayer
answers what its stack holds, and the anonymizer returns operands from its stack. A bulk sum of 1000
items takes the anonymizer out of its buffers. -/
theorem opcodeOnly_answered :
    (Replayer.replayRequest (stackAnswer 7) opcodeOnly Replayer.samplePlus.buf 0).1 = .answer 7 ∧
      (Replayer.replayRequest (stackAnswer 8) opcodeOnly Replayer.samplePlus.buf 0).1 =
        .answer 8 ∧
      (Desenitizer.retrieve (Mem.zero.write 64 [1]) opcodeOnly Mem.zero).1 = .returned 0 ∧
      (Desenitizer.retrieve (Mem.zero.write 64 [1]) opcodeOnly Mem.zero).2.2.read calcLeft 1 =
        [1] ∧
      (Desenitizer.retrieve Mem.zero ⟨intBytes Cmd.intSumBulk.code ++ intBytes 1000, 0⟩
        Mem.zero).1 = .fault := by
  decide

end HEDB
