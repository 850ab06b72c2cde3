import HEDB.Foundations.ShortReads
import HEDB.RecordReplay.Matching

/-!
# Shapes of records

`replay_request` never looks at the return value of `fread`. Behind the end of a log it goes on with
what its variables held before, and a length that it reads from the log drives its copies.

The records of all types have one `Shape`: bytes that are compared first, for some types the length
of the result, operands that are compared or skipped, the result and `resp`. Where `replay_request`
does with the bytes that its reads deliver what a shape says (`Shape.Describes`), a log is handled
safely (`Safe`) exactly if it contradicts the request, or reaches to the end of `resp` and its
length fits (`Shape.safe_iff_protected`).
-/

namespace HEDB

open Layout

/-! ## Pieces of a list -/

theorem append_prefix_iff {x y bs : List UInt8} :
    x ++ y <+: bs ↔ bs.take x.length = x ∧ y <+: bs.drop x.length := by
  constructor
  · rintro ⟨tl, rfl⟩
    rw [List.append_assoc, List.take_left, List.drop_left]
    exact ⟨rfl, List.prefix_append y tl⟩
  · rintro ⟨hx, tl, hy⟩
    exact ⟨tl, by rw [List.append_assoc, hy, ← List.take_append_drop x.length bs, hx]; simp⟩

namespace Replayer

/-- What the caller of `replay_request` gets. -/
inductive Verdict
  | answered (resp : ℤ) (buffer : Mem)
  /-- A return value `-RETRY_FAILED` or an error. -/
  | rejected
  /-- A copy leaves its buffer. -/
  | fault

def verdict : Outcome × Cursor × Mem → Verdict
  | (.answer v, _, m) => .answered v m
  | (.retryFailed, _, _) => .rejected
  | (.error _ _ _ _, _, _) => .rejected
  | (.fault, _, _) => .fault

/-! ## Shapes of records -/

/-- What `replay_request` expects of a record, for one request. -/
structure Shape where
  /-- The opcode, and the lengths that are compared with those of the request. -/
  head : List UInt8
  /-- The record gives the length of its result. -/
  sized : Bool
  /-- The length of the result, if the record does not give it. -/
  width : ℕ
  /-- The operands that are compared, before the result. -/
  before : List UInt8
  /-- The number of bytes before the result that are not compared. -/
  skip : ℕ
  /-- The operands that are compared, after the time stamp. -/
  after : List UInt8
  /-- The offset of the result field in the buffer. -/
  res : ℕ
  /-- The variables that receive the opcode and the lengths. -/
  lengths : List (ℕ × ℕ)
  /-- The size of the read buffer, without the result. -/
  buffer : ℕ
  /-- The variable that receives the operands after the time stamp. -/
  operators : List (ℕ × ℕ)
  width_le : width ≤ sizeofEncStr

namespace Shape

variable (s : Shape) (bs : List UInt8)

/-- The place of the operands in the record. -/
def fixed : ℕ := s.head.length + if s.sized then 4 else 0

/-- The length of the result. -/
def size : ℤ := if s.sized then bytesInt ((bs.drop s.head.length).take 4) else s.width

/-- The place of the result among the operands. -/
def start : ℕ := s.before.length + s.skip

/-- The variables that the reads fill, for a result of `n` bytes. -/
def destinations (n : ℕ) : List (ℕ × ℕ) := s.lengths ++ (64, s.buffer + n) :: s.operators

/-- What `replay_request` does with the bytes of a record. -/
def verdict (m : Mem) : Verdict :=
  if s.head <+: bs then
    if FitsEncStr (s.size bs) then
      if s.before <+: bs.drop s.fixed ∧
          s.after <+: bs.drop (s.fixed + s.start + (s.size bs).toNat + 12) then
        .answered (bytesInt ((bs.drop (s.fixed + s.start + (s.size bs).toNat)).take 4))
          (m.write s.res ((bs.drop (s.fixed + s.start)).take (s.size bs).toNat))
      else .rejected
    else .fault
  else .rejected

/-- The log contradicts the request where the two can be compared, or it has the length of the
result, which fits, and all the bytes of the result and of `resp`. -/
def Protected (rest : List UInt8) : Prop :=
  Agrees rest s.head → (s.sized → s.fixed ≤ rest.length) ∧ FitsEncStr (s.size rest) ∧
    (Agrees (rest.drop s.fixed) s.before →
      s.fixed + s.start + (s.size rest).toNat + 4 ≤ rest.length)

instance (rest : List UInt8) : Decidable (s.Protected rest) :=
  inferInstanceAs (Decidable (_ → _ ∧ _ ∧ _))

/-- The variables are apart and receive the whole record. -/
structure WellFormed : Prop where
  apart : ∀ n, (s.sized ∨ n = s.width) →
    (s.destinations n).Pairwise fun v w => v.1 + v.2 ≤ w.1
  sum : ∀ n, ((s.destinations n).map Prod.snd).sum =
    s.fixed + s.start + n + 12 + s.after.length
  /-- The lengths are read before the buffer. -/
  sum_lengths : s.sized → (s.lengths.map Prod.snd).sum = s.fixed

/-- The shape describes `replay_request` on the request in the buffer: whatever the log and the
stack are, it does with the bytes that the reads deliver what the shape says. -/
def Describes (m : Mem) : Prop :=
  ∀ frame c previousOp n, n = (s.size (delivered frame c (s.destinations n))).toNat →
    Replayer.verdict (replayRequest frame c m previousOp) =
      s.verdict (delivered frame c (s.destinations n)) m

end Shape

/-- **A log is handled safely**: whatever the stack holds, no copy leaves its buffer, and the
answer, if there is one, has none of its bytes from the stack. -/
structure Safe (c : Cursor) (m : Mem) : Prop where
  noFault : ∀ frame previousOp, verdict (replayRequest frame c m previousOp) ≠ .fault
  fromLog : ∀ frame frame' previousOp previousOp' v v' b b',
    verdict (replayRequest frame c m previousOp) = .answered v b →
    verdict (replayRequest frame' c m previousOp') = .answered v' b' → v = v' ∧ b = b'

namespace Shape

variable {s : Shape} {m : Mem} {c : Cursor}

theorem fits_width (h : s.sized = false) (bs : List UInt8) : FitsEncStr (s.size bs) := by
  have := s.width_le
  simp only [size, h, Bool.false_eq_true, if_false, FitsEncStr]
  omega

/-- The size of the result is known before the buffer is read. -/
theorem exists_size (hs : s.WellFormed) (frame : Mem) (c : Cursor) :
    ∃ n, n = (s.size (delivered frame c (s.destinations n))).toNat := by
  rcases hsized : s.sized with _ | _
  · exact ⟨s.width, by simp only [size, hsized, Bool.false_eq_true, if_false, Int.toNat_natCast]⟩
  · refine ⟨(s.size (delivered frame c s.lengths)).toNat, ?_⟩
    obtain ⟨tl, htl⟩ := delivered_append frame c s.lengths
      ((64, s.buffer + (s.size (delivered frame c s.lengths)).toNat) :: s.operators)
    have hlen := length_delivered frame c s.lengths
    rw [hs.sum_lengths hsized, fixed, hsized, if_pos rfl] at hlen
    rw [destinations, htl]
    simp only [size, hsized, if_true]
    rw [List.drop_append_of_le_length (by omega), List.take_append_of_le_length
      (by rw [List.length_drop]; omega)]

/-- Every continuation of the log is what the reads deliver with some stack. -/
theorem exists_frame (hs : s.WellFormed) (hd : s.Describes m) {bs : List UInt8}
    (hlen : bs.length = s.fixed + s.start + (s.size bs).toNat + 12 + s.after.length)
    (h : Agrees c.rest bs) :
    ∃ frame, ∀ p, Replayer.verdict (replayRequest frame c m p) = s.verdict bs m := by
  have hn : s.sized ∨ (s.size bs).toNat = s.width := by
    rcases hsized : s.sized with _ | _
    · exact .inr (by simp [size, hsized])
    · exact .inl rfl
  obtain ⟨frame, hframe⟩ := exists_delivered (hs.apart _ hn) (hlen.trans (hs.sum _).symm) h
  refine ⟨frame, fun p => ?_⟩
  have := hd frame c p (s.size bs).toNat (by rw [hframe])
  rwa [hframe] at this

theorem size_eq {rest bs : List UInt8} (h : Agrees rest bs)
    (hrest : s.sized → s.fixed ≤ rest.length) (hbs : s.fixed ≤ bs.length) :
    s.size bs = s.size rest := by
  rcases hsized : s.sized with _ | _
  · simp only [size, hsized, Bool.false_eq_true, if_false]
  · have hle := hrest hsized
    simp only [fixed, hsized, if_true] at hle hbs
    simp only [size, hsized, if_true, h.slice hle hbs]

theorem answered_of_verdict {bs : List UInt8} {v : ℤ} {b : Mem}
    (h : s.verdict bs m = .answered v b) :
    s.head <+: bs ∧ s.before <+: bs.drop s.fixed ∧
      v = bytesInt ((bs.drop (s.fixed + s.start + (s.size bs).toNat)).take 4) ∧
      b = m.write s.res ((bs.drop (s.fixed + s.start)).take (s.size bs).toNat) := by
  simp only [verdict] at h
  split_ifs at h with hhead hfits hops
  cases h
  exact ⟨hhead, hops.1, rfl, rfl⟩

theorem fault_of_verdict {bs : List UInt8} (h : s.verdict bs m = .fault) :
    s.head <+: bs ∧ ¬ FitsEncStr (s.size bs) := by
  simp only [verdict] at h
  split_ifs at h with hhead hfits hops
  exact ⟨hhead, hfits⟩

/-- What the reads deliver, and what `replay_request` does with it. -/
theorem exists_record (hs : s.WellFormed) (hd : s.Describes m) (frame : Mem) (c : Cursor) (p : ℤ) :
    ∃ bs, Agrees c.rest bs ∧
      bs.length = s.fixed + s.start + (s.size bs).toNat + 12 + s.after.length ∧
      Replayer.verdict (replayRequest frame c m p) = s.verdict bs m := by
  obtain ⟨n, hn⟩ := exists_size hs frame c
  refine ⟨_, agrees_delivered frame c _, ?_, hd frame c p n hn⟩
  rw [length_delivered, hs.sum, ← hn]

/-- A log that is protected answers with its own bytes. -/
theorem answered_from_log {rest bs : List UInt8} {v : ℤ} {b : Mem} (hp : s.Protected rest)
    (hagree : Agrees rest bs)
    (hlen : bs.length = s.fixed + s.start + (s.size bs).toNat + 12 + s.after.length)
    (h : s.verdict bs m = .answered v b) :
    v = bytesInt ((rest.drop (s.fixed + s.start + (s.size rest).toNat)).take 4) ∧
      b = m.write s.res ((rest.drop (s.fixed + s.start)).take (s.size rest).toNat) := by
  obtain ⟨hhead, hbefore, hv, hb⟩ := answered_of_verdict h
  obtain ⟨hsized, -, hcomplete⟩ := hp (hagree.weaken hhead)
  have hsize := size_eq hagree hsized (by omega)
  have hle := hcomplete ((hagree.drop s.fixed).weaken hbefore)
  rw [hsize] at hv hb hlen
  rw [hagree.slice (by omega) (by omega)] at hv hb
  exact ⟨hv, hb⟩

/-- **A log that is protected is handled safely.** -/
theorem safe_of_protected (hs : s.WellFormed) (hd : s.Describes m) (hp : s.Protected c.rest) :
    Safe c m where
  noFault frame p hfault := by
    obtain ⟨bs, hagree, hlen, hbs⟩ := exists_record hs hd frame c p
    rw [hbs] at hfault
    obtain ⟨hhead, hfits⟩ := fault_of_verdict hfault
    obtain ⟨hsized, hok, -⟩ := hp (hagree.weaken hhead)
    rw [size_eq hagree hsized (by omega)] at hfits
    exact hfits hok
  fromLog frame frame' p p' v v' b b' h h' := by
    obtain ⟨bs, hagree, hlen, hbs⟩ := exists_record hs hd frame c p
    obtain ⟨bs', hagree', hlen', hbs'⟩ := exists_record hs hd frame' c p'
    obtain ⟨rfl, rfl⟩ := answered_from_log hp hagree hlen (hbs ▸ h)
    obtain ⟨rfl, rfl⟩ := answered_from_log hp hagree' hlen' (hbs' ▸ h')
    exact ⟨rfl, rfl⟩

/-! ## Unprotected logs -/

/-- A length that does not fit, if the log has it or does not reach it, makes `replay_request` copy
over the end of its buffer. -/
theorem not_safe_of_size (hs : s.WellFormed) (hd : s.Describes m) (hsized : s.sized)
    (hhead : Agrees c.rest s.head) {sz : List UInt8} (hsz : sz.length = 4)
    (hagree : Agrees (c.rest.drop s.head.length) sz) (hfits : ¬ FitsEncStr (bytesInt sz)) :
    ¬ Safe c m := by
  intro hsafe
  have hfixed : s.fixed = (s.head ++ sz).length := by
    simp only [fixed, hsized, if_true, List.length_append, hsz]
  set tl := filled (c.rest.drop s.fixed) (s.start + (bytesInt sz).toNat + 12 + s.after.length)
  have hsize : s.size (s.head ++ sz ++ tl) = bytesInt sz := by
    simp only [size, hsized, if_true, List.append_assoc, List.drop_left]
    rw [← hsz, List.take_left]
  have hrecord : Agrees c.rest (s.head ++ sz ++ tl) := by
    rw [Agrees.append_iff, Agrees.append_iff, ← hfixed]
    exact ⟨⟨hhead, hagree⟩, agrees_filled _ _⟩
  obtain ⟨frame, hframe⟩ := exists_frame hs hd
    (by rw [hsize, List.length_append, ← hfixed, length_filled]; omega) hrecord
  apply hsafe.noFault frame 0
  rw [hframe, verdict, if_pos (by rw [List.append_assoc]; exact List.prefix_append _ _), hsize,
    if_neg hfits]

/-- A record in its pieces is answered. -/
theorem verdict_of_pieces {bs sz ops res resp ts : List UInt8}
    (hbs : bs = s.head ++ sz ++ (s.before ++ ops ++ (res ++ (resp ++ (ts ++ s.after)))))
    (hfixed : (s.head ++ sz).length = s.fixed) (hfits : FitsEncStr (s.size bs))
    (hops : ops.length = s.skip) (hres : res.length = (s.size bs).toNat)
    (hresp : resp.length = 4) (hts : ts.length = 8) :
    s.verdict bs m = .answered (bytesInt resp) (m.write s.res res) := by
  have hstart : (s.before ++ ops).length = s.start := by rw [List.length_append, hops, start]
  have htail : bs.drop s.fixed = s.before ++ ops ++ (res ++ (resp ++ (ts ++ s.after))) := by
    rw [hbs, ← hfixed, List.drop_left]
  have hdrop : bs.drop (s.fixed + s.start) = res ++ (resp ++ (ts ++ s.after)) := by
    rw [← List.drop_drop, htail, ← hstart, List.drop_left]
  have hdrop' : bs.drop (s.fixed + s.start + (s.size bs).toNat) = resp ++ (ts ++ s.after) := by
    rw [← List.drop_drop, hdrop, ← hres, List.drop_left]
  have hafter : bs.drop (s.fixed + s.start + (s.size bs).toNat + 12) = s.after := by
    rw [← List.drop_drop, hdrop', ← List.append_assoc]
    exact List.drop_left' (by simp only [List.length_append, hresp, hts])
  rw [verdict, if_pos (by rw [hbs, List.append_assoc]; exact List.prefix_append _ _),
    if_pos hfits, if_pos, hdrop', hdrop, ← hresp, List.take_left, ← hres, List.take_left]
  refine ⟨?_, by rw [hafter]⟩
  rw [htail, List.append_assoc]
  exact List.prefix_append _ _

/-- A log that fits the request and ends before the end of `resp` gets a `resp` whose last byte is
from the stack. -/
theorem not_safe_of_short (hs : s.WellFormed) (hd : s.Describes m) (hhead : Agrees c.rest s.head)
    (hsized : s.sized → s.fixed ≤ c.rest.length) (hfits : FitsEncStr (s.size c.rest))
    (hbefore : Agrees (c.rest.drop s.fixed) s.before)
    (hshort : c.rest.length < s.fixed + s.start + (s.size c.rest).toNat + 4) : ¬ Safe c m := by
  intro hsafe
  set n := (s.size c.rest).toNat with hn
  set sz := if s.sized then (c.rest.drop s.head.length).take 4 else [] with hsz
  set rest := c.rest.drop (s.fixed + s.before.length) with hrest
  set x := filled rest (s.skip + n + 3)
  have hx : x.length = s.skip + n + 3 := length_filled _ _
  have hfixed : (s.head ++ sz).length = s.fixed := by
    rw [hsz, List.length_append]
    split
    · rename_i hb
      have hle := hsized hb
      simp only [fixed, hb, if_true] at hle ⊢
      rw [List.length_take, List.length_drop]
      omega
    · rename_i hb
      simp only [fixed, hb, Bool.false_eq_true, if_false, List.length_nil]
  have hagree : Agrees (c.rest.drop s.head.length) sz := by
    rw [hsz]
    split
    · exact Agrees.of_take _ _
    · exact Agrees.nil_right
  -- the same record for every last byte of `resp`
  have key (b : UInt8) : ∃ frame buf, ∀ p, Replayer.verdict (replayRequest frame c m p) =
      .answered (bytesInt (x.drop (s.skip + n) ++ [b])) buf := by
    set bs := s.head ++ sz ++ (s.before ++ x.take s.skip ++ ((x.drop s.skip).take n ++
      (x.drop (s.skip + n) ++ [b] ++ (List.replicate 8 0 ++ s.after)))) with hbs
    have hwhole : bs = s.head ++ sz ++
        (s.before ++ (x ++ ([b] ++ (List.replicate 8 0 ++ s.after)))) := by
      have hcut : x.take s.skip ++ ((x.drop s.skip).take n ++ x.drop (s.skip + n)) = x := by
        rw [← List.drop_drop, List.take_append_drop, List.take_append_drop]
      rw [hbs]
      nth_rewrite 4 [← hcut]
      simp only [List.append_assoc]
    have hagrees : Agrees c.rest bs := by
      rw [hwhole, Agrees.append_iff, hfixed, Agrees.append_iff, Agrees.append_iff,
        List.drop_drop, ← hrest]
      refine ⟨⟨hhead, hagree⟩, hbefore, agrees_filled_append ?_ _⟩
      rw [hrest, List.length_drop]
      simp only [start] at hshort
      omega
    have hlen : bs.length = s.fixed + s.start + n + 12 + s.after.length := by
      rw [hwhole, List.length_append, hfixed]
      simp only [List.length_append, hx, List.length_cons, List.length_nil,
        List.length_replicate, start]
      omega
    have hsize : s.size bs = s.size c.rest := size_eq hagrees hsized (by omega)
    obtain ⟨frame, hframe⟩ := exists_frame hs hd (by rw [hlen, hsize]) hagrees
    refine ⟨frame, m.write s.res ((x.drop s.skip).take n), fun p => ?_⟩
    rw [hframe]
    exact verdict_of_pieces hbs hfixed (hsize ▸ hfits)
      (by rw [List.length_take]; omega) (by rw [List.length_take, List.length_drop, hsize]; omega)
      (by rw [List.length_append, List.length_drop, List.length_singleton]; omega)
      List.length_replicate
  obtain ⟨frame, buf, h₀⟩ := key 0
  obtain ⟨frame', buf', h₁⟩ := key 1
  obtain ⟨hv, -⟩ := hsafe.fromLog frame frame' 0 0 _ _ _ _ (h₀ 0) (h₁ 0)
  have hlast := bytesInt_injective (by simp; omega) (by simp; omega) hv
  simp at hlast

theorem protected_of_safe (hs : s.WellFormed) (hd : s.Describes m) (h : Safe c m) :
    s.Protected c.rest := by
  intro hhead
  have hsized : s.sized → s.fixed ≤ c.rest.length := by
    intro hsized
    by_contra hle
    simp only [fixed, hsized, if_true, not_le] at hle
    -- the last byte of the length is from the stack
    have hthree : (filled (c.rest.drop s.head.length) 3).length = 3 := length_filled _ _
    have hagree : Agrees (c.rest.drop s.head.length)
        (filled (c.rest.drop s.head.length) 3 ++ [128]) :=
      agrees_filled_append (by rw [List.length_drop]; omega) _
    exact not_safe_of_size hs hd hsized hhead (by rw [List.length_append, hthree]; rfl) hagree
      (fun hfits => absurd hfits.1 (not_le.mpr (bytesInt_neg hthree))) h
  have hfits : FitsEncStr (s.size c.rest) := by
    rcases hb : s.sized with _ | _
    · exact fits_width hb _
    · have hle := hsized hb
      simp only [fixed, hb, if_true] at hle
      by_contra hfits
      simp only [size, hb, if_true] at hfits
      exact not_safe_of_size hs hd hb hhead
        (by rw [List.length_take, List.length_drop]; omega) (Agrees.of_take _ _) hfits h
  refine ⟨hsized, hfits, fun hbefore => ?_⟩
  by_contra hshort
  exact not_safe_of_short hs hd hhead hsized hfits hbefore (not_le.mp hshort) h

/-- **A log is handled safely exactly if it is protected.** -/
theorem safe_iff_protected (hs : s.WellFormed) (hd : s.Describes m) :
    Safe c m ↔ s.Protected c.rest :=
  ⟨protected_of_safe hs hd, safe_of_protected hs hd⟩

end Shape

end Replayer

end HEDB
