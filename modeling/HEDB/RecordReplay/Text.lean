import HEDB.RecordReplay.Logs

/-!
# Record and replay of text operations

The record of a text operation holds the `encstr_size` bytes of each operand as they stand in the
request buffer. They include the order tag of the `EncStr`, which `serializeTo` never writes: the
tag is whatever earlier requests left at its offset. While recording that is the shared region,
which may hold bytes of an earlier session; while replaying it is a zeroed private buffer.

Three words matter: the tag of the operand of a substring (`subTag`), and the tags of the operands
of a concatenation (`concatTags`). A concatenation writes its opcode over the first, and any other
text operation writes over the other two, so that the two buffers agree on a word from then on
(`tags_step`). Replay succeeds when they agree on a word at its first use (`replay_text`), and
rejects the request otherwise (`replay_staleConcat`).
-/

namespace HEDB

open Layout

namespace Request

/-- The text operations. -/
def IsText : Request → Prop
  | .strCmp _ _ | .strLike _ _ | .substring _ _ _ | .concat _ _ => True
  | _ => False

def IsConcat : Request → Prop
  | .concat _ _ => True
  | _ => False

def IsSubstring : Request → Prop
  | .substring _ _ _ => True
  | _ => False

/-- The offset and the size of the result of a text operation. -/
def resultArea : Request → ℕ × ℕ
  | .substring _ _ _ => (subRes, sizeofEncStr)
  | .concat _ _ => (calcRes sizeofEncStr, sizeofEncStr)
  | _ => (cmpCmp sizeofEncStr, 4)

/-- The offsets that the answer to a text operation may change: the header words `status` and
`resp`, and the result. -/
def InAnswer (q : Request) (a : ℕ) : Prop :=
  a < 4 ∨ (resp ≤ a ∧ a < resp + 4) ∨ (q.resultArea.1 ≤ a ∧ a < q.resultArea.1 + q.resultArea.2)

end Request

/-- A recording session on a region that first holds `m`: each request is a text operation, it is
serialized into what the one before left, and the server changes nothing but the answer. -/
def RecordedFrom : Mem → List Completed → Prop
  | _, [] => True
  | m, k :: ks => k.req.IsText ∧
      (∀ a, ¬ k.req.InAnswer a → k.buf a = k.req.serializeTo m a) ∧ RecordedFrom k.buf ks

/-! ## The order tags -/

/-- The buffers agree on the order tag of the operand of a substring. -/
def SubTag (m b : Mem) : Prop := b.read subStr 4 = m.read subStr 4

/-- The buffers agree on the order tags of the operands of a concatenation. -/
def ConcatTags (m b : Mem) : Prop :=
  b.read calcLeft 4 = m.read calcLeft 4 ∧
    b.read (calcRight sizeofEncStr) 4 = m.read (calcRight sizeofEncStr) 4

namespace Replayer

variable {m b : Mem} {k : Completed}

theorem read_serializeTo_congr {q : Request} {o n : ℕ} (h : b.read o n = m.read o n) :
    (q.serializeTo b).read o n = (q.serializeTo m).read o n := by
  rw [Mem.read_eq_iff] at h ⊢
  intro i hi
  exact Mem.writeAll_congr (h i hi) q.writes

/-- Two buffers agree on a field that the same request has been serialized to. -/
theorem read_serializeTo_field {q : Request} {o n : ℕ} (bs : List UInt8) (h : (o, bs) ∈ q.body)
    (hn : bs.length = n) : (q.serializeTo b).read o n = (q.serializeTo m).read o n := by
  rw [(q.in_serializeTo b).field h hn, (q.in_serializeTo m).field h hn]

section Step

variable (hq : k.req.IsText) (hans : ∀ a, ¬ k.req.InAnswer a → k.buf a = k.req.serializeTo m a)
  (hfit : k.req.ResultFits k.buf)

include hq hans in
/-- The answer leaves the words before the results as they were serialized. -/
theorem read_buf_of_answer {o : ℕ} (h₁ : 12 ≤ o) (h₂ : o + 4 ≤ 368) :
    k.buf.read o 4 = (k.req.serializeTo m).read o 4 := by
  apply Mem.read_congr
  intro i hi
  apply hans
  rcases k with ⟨q, buf, ts, holds⟩
  cases q with
  | strCmp | strLike | substring | concat =>
    simp [Request.InAnswer, Request.resultArea]
    omega
  | cmp | calcNum | bulk | extractYear | enc | dec | strEnc | strDec | evalExpr => exact hq.elim

include hq in
/-- The replayed result leaves the words before it. -/
theorem read_replayed {o : ℕ} (h₂ : o + 4 ≤ 368) :
    (replayed k (k.req.serializeTo b)).read o 4 = (k.req.serializeTo b).read o 4 := by
  apply Mem.read_write_of_disjoint
  left
  rcases k with ⟨q, buf, ts, holds⟩
  cases q with
  | strCmp | strLike | substring | concat =>
    simp [Request.resultField]
    omega
  | cmp | calcNum | bulk | extractYear | enc | dec | strEnc | strDec | evalExpr => exact hq.elim

include hq hans in
/-- The buffers agree on a word from which the request has been serialized, or on which they agreed
before. -/
theorem read_replayed_eq {o : ℕ} (h₁ : 12 ≤ o) (h₂ : o + 4 ≤ 368)
    (h : b.read o 4 = m.read o 4 ∨
      (k.req.serializeTo b).read o 4 = (k.req.serializeTo m).read o 4) :
    (replayed k (k.req.serializeTo b)).read o 4 = k.buf.read o 4 := by
  rw [read_buf_of_answer hq hans h₁ h₂, read_replayed hq h₂]
  rcases h with h | h
  · exact read_serializeTo_congr h
  · exact h

/-- A concatenation writes its opcode over the tag of a substring. -/
theorem subTag_serializeTo (hc : k.req.IsConcat) :
    (k.req.serializeTo b).read subStr 4 = (k.req.serializeTo m).read subStr 4 := by
  rcases k with ⟨q, buf, ts, holds⟩
  cases q with
  | concat left right =>
    exact read_serializeTo_field (intBytes Cmd.stringConcat.code) (by simp [Request.body])
      (length_intBytes _)
  | cmp | calcNum | bulk | extractYear | strCmp | strLike | substring | enc | dec | strEnc | strDec
  | evalExpr => exact hc.elim

include hq in
/-- The other text operations write over the tags of a concatenation. -/
theorem concatTags_serializeTo (hc : ¬ k.req.IsConcat) :
    (k.req.serializeTo b).read calcLeft 4 = (k.req.serializeTo m).read calcLeft 4 ∧
      (k.req.serializeTo b).read (calcRight sizeofEncStr) 4 =
        (k.req.serializeTo m).read (calcRight sizeofEncStr) 4 := by
  rcases k with ⟨q, buf, ts, holds⟩
  cases q with
  | strCmp left right | strLike left right =>
    constructor
    · exact read_serializeTo_field (leBytes 4 left.len) (by simp [Request.body, copyEnc])
        (length_leBytes _ _)
    · exact read_serializeTo_field (leBytes 4 right.len) (by simp [Request.body, copyEnc])
        (length_leBytes _ _)
  | substring str start length =>
    constructor
    · exact read_serializeTo_field (leBytes 4 str.len) (by simp [Request.body, copyEnc])
        (length_leBytes _ _)
    · -- the second tag lies inside the start operand
      exact Mem.read_part (read_serializeTo_field (o := subStart) start.bytes
        (by simp [Request.body]) start.size) (by simp) (by simp)
  | concat => exact absurd trivial hc
  | cmp | calcNum | bulk | extractYear | enc | dec | strEnc | strDec | evalExpr => exact hq.elim

include hq hans in
/-- **A word that two buffers agree on stays so, and a request that writes over it makes them
agree.** -/
theorem tags_step :
    (k.req.IsConcat ∨ SubTag m b → SubTag k.buf (replayed k (k.req.serializeTo b))) ∧
      (¬ k.req.IsConcat ∨ ConcatTags m b →
        ConcatTags k.buf (replayed k (k.req.serializeTo b))) := by
  constructor
  · rintro (hc | htag)
    · exact read_replayed_eq hq hans (by simp) (by simp) (.inr (subTag_serializeTo hc))
    · exact read_replayed_eq hq hans (by simp) (by simp) (.inl htag)
  · rintro (hc | ⟨hl, hr⟩)
    · obtain ⟨hl, hr⟩ := concatTags_serializeTo (m := m) (b := b) hq hc
      exact ⟨read_replayed_eq hq hans (by simp) (by simp) (.inr hl),
        read_replayed_eq hq hans (by simp) (by simp) (.inr hr)⟩
    · exact ⟨read_replayed_eq hq hans (by simp) (by simp) (.inl hl),
        read_replayed_eq hq hans (by simp) (by simp) (.inl hr)⟩

include hans in
/-- An operand of a concatenation or a substring is recorded as it is sent again, when the buffers
agree on its order tag. -/
theorem encStrAt_serializeTo (hq : k.req.IsText) {o : ℕ} {s : EncStr}
    (hs : copyEnc o s ⊆ k.req.body) (h₁ : 12 ≤ o) (h₂ : o + 4 ≤ 368)
    (htag : b.read o 4 = m.read o 4) : encStrAt (k.req.serializeTo b) o = encStrAt k.buf o := by
  rw [(k.req.in_serializeTo b).encStrAt hs, k.holds.encStrAt hs,
    read_buf_of_answer hq hans h₁ h₂, read_serializeTo_congr htag]

include hq hans hfit in
/-- **A text operation that is sent again is answered from its record**, when the buffers agree on
the order tags that the record holds. -/
theorem resends_text (hc : k.req.IsConcat → ConcatTags m b) (hs : k.req.IsSubstring → SubTag m b) :
    Resends k (k.req.serializeTo b) := by
  have ht := (k.req.in_serializeTo b).reqType
  have hin := k.req.in_serializeTo b
  have htext {o : ℕ} {s : EncStr} (hs : copyEnc o s ⊆ k.req.body) (h₁ : 12 ≤ o) (h₂ : o + 4 ≤ 368)
      (htag : b.read o 4 = m.read o 4) : encStrAt (k.req.serializeTo b) o = encStrAt k.buf o :=
    encStrAt_serializeTo hans hq hs h₁ h₂ htag
  have hfield {o n : ℕ} {bs : List UInt8} (h : (o, bs) ∈ k.req.body) (hn : bs.length = n) :
      (k.req.serializeTo b).read o n = k.buf.read o n := by
    rw [hin.field h hn, k.holds.field h hn]
  rcases k with ⟨q, buf, ts, holds⟩
  cases q with
  | strCmp left right =>
    refine ⟨trivial, trivial, ht, fun hrest => ?_⟩
    rw [replayRequest_strCmp (.inl rfl) holds ht hrest, if_pos]
    · rfl
    · rw [hin.sizeAt (s := left) (by simp [Request.body]),
        hin.sizeAt (s := right) (by simp [Request.body])]
      exact ⟨rfl, rfl⟩
  | strLike left right =>
    refine ⟨trivial, trivial, ht, fun hrest => ?_⟩
    rw [replayRequest_strCmp (.inr rfl) holds ht hrest, if_pos]
    · rfl
    · rw [hin.sizeAt (s := left) (by simp [Request.body]),
        hin.sizeAt (s := right) (by simp [Request.body])]
      exact ⟨rfl, rfl⟩
  | substring str start length =>
    refine resends_of_same (k := ⟨_, buf, ts, holds⟩) trivial hfit ht ?_
    simp only [Request.cmd, operandsAt]
    rw [htext (s := str) (by simp [Request.body]) (by simp) (by simp) (hs trivial),
      hfield (by simp [Request.body]) start.size, hfield (by simp [Request.body]) length.size]
  | concat left right =>
    obtain ⟨hl, hr⟩ := hc trivial
    refine resends_of_same (k := ⟨_, buf, ts, holds⟩) trivial hfit ht ?_
    simp only [Request.cmd, operandsAt]
    rw [htext (s := left) (by simp [Request.body]) (by simp) (by simp) hl,
      htext (s := right) (by simp [Request.body]) (by simp) (by simp) hr]
  | cmp | calcNum | bulk | extractYear | enc | dec | strEnc | strDec | evalExpr => exact hq.elim

end Step

/-! ## Runs -/

/-- A request of a replaying session: `sendRequest` serializes it into the private buffer and calls
`replay`. -/
def send (fs : String → List UInt8) (i : Mem × Request) (s : Replayer × Mem) :
    (Ret × Mem) × (Replayer × Mem) :=
  let out := call fs (i.1, i.2.serializeTo s.2) s.1
  (out.1, (out.2, out.1.2))

/-- The run contains a substring that no concatenation precedes. -/
def SubstringFirst (ks : List Completed) : Prop :=
  ∃ pre k post, ks = pre ++ k :: post ∧ k.req.IsSubstring ∧ ∀ p ∈ pre, ¬ p.req.IsConcat

/-- The run begins with a concatenation. -/
def ConcatFirst (ks : List Completed) : Prop := ∃ k ∈ ks.head?, k.req.IsConcat

/-- **A session that sends the requests of a recorded run again is answered from its log**, from any
two buffers that agree on the order tags at their first use. -/
theorem replay_text_from {fs : String → List UInt8} {ks : List Completed} {m b : Mem}
    (hrun : RecordedFrom m ks) (hfits : ∀ k ∈ ks, k.req.ResultFits k.buf)
    (hc : ConcatFirst ks → ConcatTags m b) (hs : SubstringFirst ks → SubTag m b)
    {is : List (Mem × Request)} (his : List.Forall₂ (fun k i => i.2 = k.req) ks is)
    {rp : Replayer} (tl : List UInt8)
    (hnext : ∀ k ks', ks = k :: ks' → Next fs rp k (ks'.flatMap Completed.encoding ++ tl)) :
    List.Forall₂ Answers ks (readAll (send fs) is (rp, b)).1 := by
  induction his generalizing m b rp with
  | nil => exact .nil
  | @cons k i ks is hki _ ih =>
    obtain ⟨htext, hans, hrun'⟩ := hrun
    have hfit := hfits k List.mem_cons_self
    have hres : Resends k (i.2.serializeTo b) := by
      rw [hki]
      exact resends_text htext hans hfit (fun h => hc ⟨k, rfl, h⟩)
        fun h => hs ⟨[], k, ks, rfl, h, by simp⟩
    obtain ⟨hout, hbefore⟩ := hnext k ks rfl (i.1, i.2.serializeTo b) hres
    obtain ⟨hsub, hconcat⟩ := tags_step (b := b) htext hans
    have hstate : (send fs i (rp, b)).2 =
        ((call fs (i.1, i.2.serializeTo b) rp).2, replayed k (k.req.serializeTo b)) := by
      rw [send, hout, hki]
    rw [readAll]
    refine .cons ?_ ?_
    · rw [send, hout]
      exact answers_replayed hres
    rw [hstate]
    refine ih hrun' (fun k' hk' => hfits k' (List.mem_cons_of_mem _ hk')) (fun _ => ?_)
      (fun h => ?_)
      fun k' ks' hk' => next_of_before ?_
    · -- any request but a concatenation makes the buffers agree on the tags of a concatenation
      by_cases h : k.req.IsConcat
      · exact hconcat (.inr (hc ⟨k, rfl, h⟩))
      · exact hconcat (.inl h)
    · by_cases hk : k.req.IsConcat
      · exact hsub (.inl hk)
      · obtain ⟨pre, k', post, rfl, hk', hpre⟩ := h
        exact hsub (.inr (hs ⟨k :: pre, k', post, rfl, hk', List.forall_mem_cons.mpr ⟨hk, hpre⟩⟩))
    · rw [hk', List.flatMap_cons, List.append_assoc] at hbefore
      exact hbefore

theorem isText_of_recordedFrom {m : Mem} {ks : List Completed} (h : RecordedFrom m ks) :
    ∀ k ∈ ks, k.req.IsText := by
  induction ks generalizing m with
  | nil => simp
  | cons k ks ih => exact List.forall_mem_cons.mpr ⟨h.1, ih h.2.2⟩

theorem logged_of_isText {q : Request} (h : q.IsText) : q.Logged := by
  cases q with
  | strCmp | strLike | substring | concat => trivial
  | cmp | calcNum | bulk | extractYear | enc | dec | strEnc | strDec | evalExpr => exact h.elim

/-- **Record then replay is the identity on text operations when no stale order tag is recorded**:
if the region holds zeros at the tags of a concatenation that comes first, and at the tag of a
substring that no concatenation precedes, then a session on the zeroed private buffer that sends the
requests again gets the recorded `resp` and the recorded result of each. -/
theorem replay_text (m : Mem) (ks : List Completed) (hrun : RecordedFrom m ks)
    (hfits : ∀ k ∈ ks, k.req.ResultFits k.buf) (hfirst : ∀ k ∈ ks.head?, k.resp ≠ retryFailed)
    (hc : ConcatFirst ks → ConcatTags m Mem.zero) (hs : SubstringFirst ks → SubTag m Mem.zero)
    (is : List (Mem × Request)) (his : List.Forall₂ (fun k i => i.2 = k.req) ks is) (name : String)
    (previousOp : ℤ) :
    ∃ R, recordRun [] ks = some R ∧ ∀ fs : String → List UInt8, fs name = R.file →
      List.Forall₂ Answers ks (readAll (send fs) is (start [name] previousOp, Mem.zero)).1 := by
  obtain ⟨R, hR⟩ := recordRun_isSome [] ks fun k hk =>
    ⟨logged_of_isText (isText_of_recordedFrom hrun k hk), hfits k hk⟩
  refine ⟨R, hR, fun fs hfs => ?_⟩
  obtain ⟨tl, hfile⟩ := file_of_log hR
  refine replay_text_from hrun hfits hc hs his tl fun k ks' hk => ?_
  rw [hk, List.flatMap_cons, List.append_assoc] at hfile
  exact next_start previousOp (hfs.trans hfile) (hfirst k (by rw [hk]; rfl))

/-! ## Stale order tags -/

section Stale

variable {frame : Mem} {c : Cursor} {previousOp : ℤ} {tl : List UInt8} {m b : Mem} {k : Completed}

/-- **A concatenation whose order tags differ from the recorded ones is rejected.** -/
theorem rejects_of_concatTags {left right : EncStr} (hk : k.req = .concat left right)
    (hans : ∀ a, ¬ k.req.InAnswer a → k.buf a = k.req.serializeTo m a)
    (hfit : k.req.ResultFits k.buf) (htags : ¬ ConcatTags m b) (hrest : c.rest = k.encoding ++ tl) :
    replayRequest frame c (k.req.serializeTo b) previousOp =
      (.retryFailed, c.advance k.encoding.length, k.req.serializeTo b) := by
  have hq : k.req.IsText := by rw [hk]; trivial
  have hkept {m : Mem} {o : ℕ} (ho : o = calcLeft ∨ o = calcRight sizeofEncStr) :
      (k.req.serializeTo m).read o 4 = m.read o 4 := by
    have := left.len_le
    apply Mem.read_writeAll_of_disjoint
    rcases ho with rfl | rfl <;> simp [hk, Request.writes, Request.body, copyEnc] at this ⊢
    omega
  have hin := k.req.in_serializeTo b
  have hbody : k.req.body = (calcOp, intBytes Cmd.stringConcat.code) ::
      (copyEnc calcLeft left ++ copyEnc (calcRight sizeofEncStr) right) := by rw [hk]; rfl
  have hl := hin.sizeAt (o := calcLeft) (s := left) (by rw [hbody]; simp)
  have hr := hin.sizeAt (o := calcRight sizeofEncStr) (s := right) (by rw [hbody]; simp)
  replace hfit : FitsEncStr (Recorder.sizeAt k.buf (calcRes sizeofEncStr)) := by
    rw [hk] at hfit
    exact fitsEncStr_of_le hfit
  have hholds : (Request.concat left right).In k.buf := hk ▸ k.holds
  have htype : (k.req.serializeTo b).int reqType = Cmd.stringConcat.code := by
    rw [hin.reqType, hk]
    rfl
  have htag {o n : ℕ} (ho : o = calcLeft ∨ o = calcRight sizeofEncStr)
      (h : (k.req.serializeTo b).read o (8 + n) = k.buf.read o (8 + n)) :
      b.read o 4 = m.read o 4 := by
    have h₄ := Mem.read_part h le_rfl (show o + 4 ≤ o + (8 + n) by omega)
    rwa [hkept ho, read_buf_of_answer hq hans (by rcases ho with rfl | rfl <;> simp)
      (by rcases ho with rfl | rfl <;> simp), hkept ho] at h₄
  rw [replayRequest_concat hholds hfit.1 htype hrest, if_pos ⟨hl.symm, hr.symm⟩, if_pos hfit,
    if_neg]
  · rfl
  · rintro ⟨h₁, h₂⟩
    exact htags ⟨htag (.inl rfl) h₁, htag (.inr rfl) h₂⟩

end Stale

theorem length_zeroTimestamp : (List.replicate 8 (0 : UInt8)).length = sizeofUint64 := rfl

/-- A concatenation of the texts 1 and 2 on a region, answered with the text 3. -/
def concatOn (m : Mem) : Completed where
  req := .concat ⟨0, [1], by simp⟩ ⟨0, [2], by simp⟩
  buf := ((Request.concat ⟨0, [1], by simp⟩ ⟨0, [2], by simp⟩).serializeTo m).writeAll
    (copyEnc (calcRes sizeofEncStr) ⟨0, [3], by simp⟩)
  timestamp := ⟨List.replicate 8 0, length_zeroTimestamp⟩
  holds := by
    refine Mem.Holds.write (Mem.Holds.write (Request.in_serializeTo _ _) ?_) ?_
    · simp [Request.writes, Request.body, copyEnc, Mem.Apart]
    · simp [Request.writes, Request.body, copyEnc, Mem.Apart]

theorem recordedFrom_concatOn (m : Mem) : RecordedFrom m [concatOn m] := by
  refine ⟨trivial, fun a ha => ?_, trivial⟩
  simp only [Request.InAnswer, Request.resultArea, concatOn, sizeofEncStr, encStringLength,
    stringLength, ivSize, tagSize, calcRes] at ha
  simp only [concatOn, copyEnc, Mem.writeAll_cons, Mem.writeAll_nil]
  rw [Mem.write_apply_of_not, Mem.write_apply_of_not]
  · simp
    omega
  · simp
    omega

theorem resultFits_concatOn (m : Mem) : (concatOn m).req.ResultFits (concatOn m).buf := by
  have hlen : (concatOn m).buf.read (calcRes sizeofEncStr + strLen) 4 = leBytes 4 1 :=
    (Mem.read_write_of_disjoint _ (by simp)).trans
      (Mem.read_write_of_length _ _ _ _ (length_leBytes 4 1))
  show leNat ((concatOn m).buf.read (calcRes sizeofEncStr + strLen) 4) ≤ _
  rw [hlen]
  decide

theorem resp_concatOn (m : Mem) : (concatOn m).resp = m.int Layout.resp := by
  have hread : (concatOn m).buf.read Layout.resp 4 = m.read Layout.resp 4 := by
    refine (Mem.read_writeAll_of_disjoint _ ?_).trans (Mem.read_writeAll_of_disjoint _ ?_)
    · simp [copyEnc]
    · simp [Request.writes, Request.body, copyEnc]
  rw [Completed.resp, Mem.int, hread]
  rfl

/-- A region with a stale word, which is not at an order tag of a concatenation. -/
def staleElsewhere : Mem := Mem.zero.setInt cmpLeft 1

/-- Two concatenations on it, one after the other. -/
def concatTwice : List Completed :=
  [concatOn staleElsewhere, concatOn (concatOn staleElsewhere).buf]

theorem replay_text_concatTwice : RecordedFrom staleElsewhere concatTwice ∧
    ∃ R, recordRun [] concatTwice = some R ∧
      ∀ fs : String → List UInt8, fs "record.log" = R.file →
      List.Forall₂ Answers concatTwice (readAll (send fs)
        (concatTwice.map fun k => (Mem.zero, k.req)) (start ["record.log"] 0, Mem.zero)).1 := by
  have hrun : RecordedFrom staleElsewhere concatTwice :=
    ⟨trivial, (recordedFrom_concatOn _).2.1, recordedFrom_concatOn _⟩
  have hfits : ∀ k ∈ concatTwice, k.req.ResultFits k.buf :=
    List.forall_mem_cons.mpr ⟨resultFits_concatOn _,
      List.forall_mem_singleton.mpr (resultFits_concatOn _)⟩
  have hfirst : ∀ k ∈ concatTwice.head?, k.resp ≠ retryFailed := by
    simp only [concatTwice, List.head?_cons, Option.mem_some_iff, forall_eq', resp_concatOn]
    decide
  have htags : ConcatTags staleElsewhere Mem.zero := ⟨by decide, by decide⟩
  have hsub : ¬ SubstringFirst concatTwice := by
    rintro ⟨pre, k, post, hk, hsub, -⟩
    have hmem : k ∈ concatTwice := hk ▸ List.mem_append_right _ List.mem_cons_self
    rcases List.mem_pair.mp hmem with rfl | rfl <;> cases hsub
  exact ⟨hrun, replay_text staleElsewhere _ hrun hfits hfirst (fun _ => htags)
    (fun h => absurd h hsub) _ (.cons rfl (.cons rfl .nil)) _ _⟩

/-- A region that holds a 1 at the order tag of the left operand of a concatenation. -/
def staleRegion : Mem := Mem.zero.setInt calcLeft 1

/-- **A concatenation that was recorded on a region with a stale order tag is rejected**: the only
log holds its record with `resp = 0`, and `replay` returns -1. -/
theorem replay_staleConcat : RecordedFrom staleRegion [concatOn staleRegion] ∧
    (concatOn staleRegion).req.ResultFits (concatOn staleRegion).buf ∧
    (concatOn staleRegion).resp = 0 ∧
    ∃ R, recordRun [] [concatOn staleRegion] = some R ∧
      ∀ fs : String → List UInt8, fs "record.log" = R.file →
      (readAll (send fs) [(Mem.zero, (concatOn staleRegion).req)]
        (start ["record.log"] 0, Mem.zero)).1.map Prod.fst = [.returned (-1)] := by
  have hrun := recordedFrom_concatOn staleRegion
  have hfits := resultFits_concatOn staleRegion
  have htags : ¬ ConcatTags staleRegion Mem.zero := fun h => absurd h.1 (by decide)
  obtain ⟨R, hR⟩ := recordRun_isSome [] [concatOn staleRegion]
    (List.forall_mem_singleton.mpr ⟨trivial, hfits⟩)
  refine ⟨hrun, hfits, (resp_concatOn _).trans (by decide), R, hR, fun fs hfs => ?_⟩
  obtain ⟨tl, hfile⟩ := file_of_log hR
  rw [List.flatMap_singleton] at hfile
  have hrest : (Cursor.mk (fs "record.log") 0).rest = (concatOn staleRegion).encoding ++ tl :=
    hfs.trans hfile
  have hret : (answerFrom Mem.zero (start ["record.log"] 0) ⟨fs "record.log", 0⟩
      ((concatOn staleRegion).req.serializeTo Mem.zero)).1 = .returned retryFailed := by
    simp only [answerFrom, rejects_of_concatTags rfl hrun.2.1 hfits htags hrest]
  have hreq : ¬ NotReplayed (((concatOn staleRegion).req.serializeTo Mem.zero).int reqType) := by
    rw [(Request.in_serializeTo _ _).reqType]
    exact not_notReplayed (q := (concatOn staleRegion).req) trivial
  have hcall := (call_start_of_returned
    (i := (Mem.zero, (concatOn staleRegion).req.serializeTo Mem.zero)) hreq hret).2 rfl
  simp only [readAll, send, List.map_cons, List.map_nil, hcall]

end Replayer

end HEDB
