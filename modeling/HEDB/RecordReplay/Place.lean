import HEDB.Pipeline.Confinement
import HEDB.RecordReplay.Choice
import HEDB.RecordReplay.Described

/-!
# The record that a request is answered from

`replay` answers a request from the record at one place (`place`): at the cursor of the open log,
or at the start of the log that is chosen. Here its answer is told by the bytes of this record, as
the reads deliver them: the `resp` that it carries (`Carries`), and a length of its result that does
not fit (`Overlong`).

Two values of `resp` have a meaning of their own, `-RETRY_FAILED` and `NOT_REPLAY`. A caller sees
`NOT_REPLAY` exactly when the record at the place carries it (`notReplay_iff`), and never when all
the records that may be read are ordinary ones (`call_of_plain`).
-/

namespace HEDB

open Layout

namespace Replayer

/-! ## What a record says -/

/-- The bytes are a record that answers the request. -/
structure Shape.Matches (s : Shape) (bs : List UInt8) : Prop where
  head : s.head <+: bs
  fits : FitsEncStr (s.size bs)
  before : s.before <+: bs.drop s.fixed
  after : s.after <+: bs.drop (s.fixed + s.start + (s.size bs).toNat + 12)

/-- The `resp` of the record. -/
def Shape.resp (s : Shape) (bs : List UInt8) : ℤ :=
  bytesInt ((bs.drop (s.fixed + s.start + (s.size bs).toNat)).take 4)

section Records

variable (q : Request) (frame : Mem) (c : Cursor) (m : Mem)

/-- The reads at the cursor deliver the bytes, for the request in the buffer. -/
def Delivers (bs : List UInt8) : Prop :=
  ∃ n, n = ((shapeOf m q).size bs).toNat ∧ bs = delivered frame c ((shapeOf m q).destinations n)

/-- The record at the cursor answers the request with this `resp`. A request that is never logged is
answered at its bare opcode, with a `resp` that has not been initialised. -/
def Carries (v : ℤ) : Prop :=
  (q.Logged ∧ ∃ bs, Delivers q frame c m bs ∧ (shapeOf m q).Matches bs ∧
      (shapeOf m q).resp bs = v) ∨
    ¬ q.Logged ∧ bytesInt (c.fread (frame.read 0 4)).1 = q.cmd.code ∧ bytesInt (frame.read 4 4) = v

/-- The record at the cursor is one of the opcode and the lengths of the request, and its result
does not fit. -/
def Overlong : Prop :=
  q.Logged ∧ ∃ bs, Delivers q frame c m bs ∧ (shapeOf m q).head <+: bs ∧
    ¬ FitsEncStr ((shapeOf m q).size bs)

/-- The record at the cursor has a result that fits and a `resp` that is not a reserved value, if it
answers the request at all. -/
structure Plain : Prop where
  fits : ¬ Overlong q frame c m
  retryFailed : ¬ Carries q frame c m retryFailed
  notReplay : ¬ Carries q frame c m notReplay

end Records

variable {fs : String → List UInt8} {frame m : Mem} {c : Cursor} {q : Request} {p v : ℤ}
  {names : List String} {name : String} {rp : Replayer}

theorem Shape.verdict_eq_answered_iff {s : Shape} {bs : List UInt8} :
    (∃ b, s.verdict bs m = .answered v b) ↔ s.Matches bs ∧ s.resp bs = v := by
  simp only [Shape.verdict, Shape.resp]
  constructor
  · rintro ⟨b, h⟩
    split_ifs at h with hhead hfits hops
    cases h
    exact ⟨⟨hhead, hfits, hops.1, hops.2⟩, rfl⟩
  · rintro ⟨⟨hhead, hfits, hbefore, hafter⟩, rfl⟩
    rw [if_pos hhead, if_pos hfits, if_pos ⟨hbefore, hafter⟩]
    exact ⟨_, rfl⟩

theorem Shape.verdict_eq_fault_iff {s : Shape} {bs : List UInt8} :
    s.verdict bs m = .fault ↔ s.head <+: bs ∧ ¬ FitsEncStr (s.size bs) := by
  refine ⟨fault_of_verdict, fun ⟨hhead, hfits⟩ => ?_⟩
  rw [Shape.verdict, if_pos hhead, if_neg hfits]

theorem verdict_eq_answered_iff {x : Outcome × Cursor × Mem} {b : Mem} :
    verdict x = .answered v b ↔ x.1 = .answer v ∧ x.2.2 = b := by
  rcases x with ⟨_ | _ | _ | _, c', m'⟩ <;> simp [verdict]

theorem verdict_eq_fault_iff {x : Outcome × Cursor × Mem} : verdict x = .fault ↔ x.1 = .fault := by
  rcases x with ⟨_ | _ | _ | _, c', m'⟩ <;> simp [verdict]

theorem exists_delivers (q : Request) (frame : Mem) (c : Cursor) (m : Mem) :
    ∃ bs, Delivers q frame c m bs := by
  obtain ⟨n, hn⟩ := Shape.exists_size (wellFormed_shapeOf m q) frame c
  exact ⟨_, n, hn, rfl⟩

theorem verdict_of_delivers (h : q.In m) (hq : q.Logged) {bs : List UInt8}
    (hbs : Delivers q frame c m bs) (p : ℤ) :
    verdict (replayRequest frame c m p) = (shapeOf m q).verdict bs m := by
  obtain ⟨n, hn, rfl⟩ := hbs
  exact describes_shapeOf h hq frame c p n hn

/-- A request that is neither logged nor refused by `replay` has no branch. -/
theorem replayRequest_of_not_logged (h : q.In m) (hq : ¬ q.Logged)
    (hreq : ¬ NotReplayed q.cmd.code) (frame : Mem) (c : Cursor) (p : ℤ) :
    ((replayRequest frame c m p).1 = .answer v ↔
        bytesInt (c.fread (frame.read 0 4)).1 = q.cmd.code ∧ bytesInt (frame.read 4 4) = v) ∧
      (replayRequest frame c m p).1 ≠ .fault ∧ (replayRequest frame c m p).2.2 = m := by
  have ht := h.reqType
  cases q with
  | evalExpr items expr hle =>
    have hbranch (c : Cursor) :
        replayBranch frame c m = (.answer (bytesInt (frame.read 4 4)), c, m) := by
      simp only [replayBranch, ht]
      simp [Request.cmd, Cmd.code]
    simp only [replayRequest, hbranch, ht]
    by_cases hop :
      bytesInt (c.fread (frame.read 0 4)).1 = (Request.evalExpr items expr hle).cmd.code
    · simp [hop]
    · simp [hop]
  | enc f => cases f <;> simp [NotReplayed, Request.cmd, Fam.encCmd] at hreq
  | dec f => cases f <;> simp [NotReplayed, Request.cmd, Fam.decCmd] at hreq
  | strEnc | strDec => simp [NotReplayed, Request.cmd] at hreq
  | _ => exact absurd trivial hq

/-- What one record that the log delivers says, every one says. -/
theorem iff_exists_delivers {A : Prop} {B : List UInt8 → Prop}
    (h : ∀ bs, Delivers q frame c m bs → (A ↔ B bs)) :
    A ↔ ∃ bs, Delivers q frame c m bs ∧ B bs := by
  constructor
  · intro hA
    obtain ⟨bs, hbs⟩ := exists_delivers q frame c m
    exact ⟨bs, hbs, (h bs hbs).mp hA⟩
  · rintro ⟨bs, hbs, hB⟩
    exact (h bs hbs).mpr hB

/-- **`replay_request` answers with the `resp` that the record carries.** -/
theorem answer_iff_carries (h : q.In m) (hreq : ¬ NotReplayed q.cmd.code) :
    (replayRequest frame c m p).1 = .answer v ↔ Carries q frame c m v := by
  by_cases hq : q.Logged
  · simp only [Carries, hq, not_true_eq_false, false_and, or_false, true_and]
    refine iff_exists_delivers fun bs hbs => ?_
    rw [← Shape.verdict_eq_answered_iff (m := m), ← verdict_of_delivers h hq hbs p]
    simp [verdict_eq_answered_iff]
  · simpa [Carries, hq] using (replayRequest_of_not_logged h hq hreq frame c p).1

theorem fault_iff_overlong (h : q.In m) (hreq : ¬ NotReplayed q.cmd.code) :
    (replayRequest frame c m p).1 = .fault ↔ Overlong q frame c m := by
  by_cases hq : q.Logged
  · simp only [Overlong, hq, true_and]
    refine iff_exists_delivers fun bs hbs => ?_
    rw [← Shape.verdict_eq_fault_iff (m := m), ← verdict_of_delivers h hq hbs p,
      verdict_eq_fault_iff]
  · exact iff_of_false (replayRequest_of_not_logged (v := 0) h hq hreq frame c p).2.1
      fun h => hq h.1

/-! ## Where it is read -/

/-- What `replay` returns at the log that it answers from. -/
def retOf : Outcome → Ret
  | .answer v => .returned v
  | .retryFailed => .returned retryFailed
  | .error at_ op t previousOp => .raised at_ op t previousOp
  | .fault => .fault

theorem answerFrom_fst (rp : Replayer) (c : Cursor) :
    (answerFrom frame rp c m).1 = retOf (replayRequest frame c m rp.previousOp).1 := by
  simp only [answerFrom]
  rcases replayRequest frame c m rp.previousOp with ⟨_ | _ | _ | _, c', m'⟩ <;> rfl

/-- The place where the replayer reads the record of its answer, and the state in which it does:
the last opcode that was answered, and the buffer. -/
def place (fs : String → List UInt8) (frame : Mem) (rp : Replayer) (m : Mem) :
    Option (Cursor × ℤ × Mem) :=
  match rp.replayFile with
  | some c => some (c, rp.previousOp, m)
  | none => (choose fs frame (rp.previousOp, m) rp.filenames).map fun x => (⟨fs x.1, 0⟩, x.2)

/-- When all the logs are passed over, the call returns -1. -/
theorem tryFiles_of_choose_none (all : List String) {s : ℤ × Mem}
    (h : choose fs frame s names = none) :
    (tryFiles fs frame (start all s.1) s.2 names).1 = .returned (-1) := by
  induction names generalizing s with
  | nil => rfl
  | cons first rest ih =>
    rw [choose] at h
    rw [tryFiles_start]
    by_cases hp : PassedOver fs frame s first
    · rw [if_pos hp] at h ⊢
      exact ih h
    · rw [if_neg hp] at h
      cases h

/-- **The answer of the replayer is the one of the record at its place.** -/
theorem call_place (hreq : ¬ NotReplayed (m.int reqType)) :
    (call fs (frame, m) rp).1.1 = (place fs frame rp m).elim (.returned (-1)) fun x =>
      retOf (replayRequest frame x.1 x.2.2 x.2.1).1 := by
  obtain ⟨file, names, p⟩ := rp
  cases file with
  | some c =>
    simp only [call, replay, if_neg hreq]
    exact answerFrom_fst ⟨some c, names, p⟩ c
  | none =>
    have hreplay : replay fs frame (start names p) m = tryFiles fs frame (start names p) m names :=
      replay_start (s := (p, m)) hreq
    change (replay fs frame (start names p) m).1 = _
    rw [hreplay, place]
    cases hchoose : choose fs frame (p, m) names with
    | none => exact tryFiles_of_choose_none names hchoose
    | some x =>
      rw [tryFiles_of_choose names hchoose]
      exact answerFrom_fst (start [x.1] x.2.1) ⟨fs x.1, 0⟩

/-! ## The request stays in the buffer -/

/-- The result is copied behind the operands. -/
theorem in_write_res (h : q.In m) (hq : q.Logged) (bs : List UInt8) :
    q.In (m.write (shapeOf m q).res bs) := by
  have hres : (shapeOf m q).res = q.resultSpan.1 := by
    cases q with
    | enc | dec | strEnc | strDec | evalExpr => exact hq.elim
    | _ => rfl
  have hspan := q.header_le_resultSpan
  rw [hres]
  refine h.write fun w hw => .inl ?_
  rcases List.mem_cons.mp hw with rfl | hw
  · rw [length_intBytes]
    simp only [reqType]
    omega
  · exact q.le_resultSpan w hw

theorem in_passing {s : ℤ × Mem} (h : q.In s.2) (hreq : ¬ NotReplayed q.cmd.code)
    (hp : PassedOver fs frame s name) : q.In (passing fs frame s name).2 := by
  rw [passing, attempt, buffer_answerFrom]
  rcases passedOver_iff_outcome.mp hp with hout | hout
  · by_cases hq : q.Logged
    · obtain ⟨bs, hbs⟩ := exists_delivers q frame ⟨fs name, 0⟩ s.2
      have hverdict := verdict_of_delivers h hq hbs s.1
      rw [verdict_eq_answered_iff.mpr ⟨hout, rfl⟩] at hverdict
      obtain ⟨-, -, -, hbuf⟩ := Shape.answered_of_verdict hverdict.symm
      rw [start, hbuf]
      exact in_write_res h hq _
    · rw [start, (replayRequest_of_not_logged (v := 0) h hq hreq frame _ s.1).2.2]
      exact h
  · rw [start, buffer_of_retryFailed frame _ s.2 s.1 hout]
    exact h

theorem in_choose {s t : ℤ × Mem} (h : q.In s.2) (hreq : ¬ NotReplayed q.cmd.code)
    (hchoose : choose fs frame s names = some (name, t)) : q.In t.2 := by
  induction names generalizing s with
  | nil => cases hchoose
  | cons first rest ih =>
    rw [choose] at hchoose
    by_cases hp : PassedOver fs frame s first
    · rw [if_pos hp] at hchoose
      exact ih (in_passing h hreq hp) hchoose
    · rw [if_neg hp] at hchoose
      cases hchoose
      exact h

theorem in_place {x : Cursor × ℤ × Mem} (h : q.In m) (hreq : ¬ NotReplayed q.cmd.code)
    (hplace : place fs frame rp m = some x) : q.In x.2.2 := by
  unfold place at hplace
  split at hplace
  · cases hplace
    exact h
  · obtain ⟨x, hchoose, hx⟩ := Option.map_eq_some_iff.mp hplace
    cases hx
    exact in_choose (s := (rp.previousOp, m)) h hreq hchoose

/-! ## The reserved value -/

/-- **When a caller sees `NOT_REPLAY`.** -/
theorem notReplay_iff (h : q.In m) (hreq : ¬ NotReplayed q.cmd.code) :
    (call fs (frame, m) rp).1.1 = .returned notReplay ↔
      ∃ x, place fs frame rp m = some x ∧ Carries q frame x.1 x.2.2 notReplay := by
  rw [call_place (by rwa [h.reqType])]
  cases hplace : place fs frame rp m with
  | none => simp [notReplay]
  | some x =>
    simp only [Option.elim_some, Option.some.injEq, exists_eq_left']
    rw [← answer_iff_carries (p := x.2.1) (in_place h hreq hplace) hreq]
    rcases (replayRequest frame x.1 x.2.2 x.2.1).1 with _ | _ | _ | _ <;>
      simp [retOf, notReplay, retryFailed]

theorem fault_iff (h : q.In m) (hreq : ¬ NotReplayed q.cmd.code) :
    (call fs (frame, m) rp).1.1 = .fault ↔
      ∃ x, place fs frame rp m = some x ∧ Overlong q frame x.1 x.2.2 := by
  rw [call_place (by rwa [h.reqType])]
  cases hplace : place fs frame rp m with
  | none => simp
  | some x =>
    simp only [Option.elim_some, Option.some.injEq, exists_eq_left']
    rw [← fault_iff_overlong (p := x.2.1) (in_place h hreq hplace) hreq]
    rcases (replayRequest frame x.1 x.2.2 x.2.1).1 with _ | _ | _ | _ <;> simp [retOf]

/-- The cursors at which a record may be read for the next request. -/
def candidates (fs : String → List UInt8) (rp : Replayer) : List Cursor :=
  match rp.replayFile with
  | some c => [c]
  | none => rp.filenames.map fun name => ⟨fs name, 0⟩

/-- Without reserved values, a log that is passed over leaves no trace. -/
theorem choose_of_plain {s t : ℤ × Mem} (h : q.In s.2) (hreq : ¬ NotReplayed q.cmd.code)
    (hplain : ∀ name ∈ names, Plain q frame ⟨fs name, 0⟩ s.2)
    (hchoose : choose fs frame s names = some (name, t)) : name ∈ names ∧ t = s := by
  induction names with
  | nil => cases hchoose
  | cons first rest ih =>
    obtain ⟨hfirst, hrest⟩ := List.forall_mem_cons.mp hplain
    rw [choose] at hchoose
    by_cases hp : PassedOver fs frame s first
    · have hout := (passedOver_iff_outcome.mp hp).resolve_left fun hout =>
        hfirst.retryFailed ((answer_iff_carries h hreq).mp hout)
      have hpassing : passing fs frame s first = s := by
        have hbuf := buffer_of_retryFailed frame ⟨fs first, 0⟩ s.2 s.1 hout
        simp only [passing, attempt, answerFrom, start]
        rcases hrequest : replayRequest frame ⟨fs first, 0⟩ s.2 s.1 with ⟨out, c', m'⟩
        rw [hrequest] at hout hbuf
        cases hout
        exact Prod.ext rfl hbuf
      rw [if_pos hp, hpassing] at hchoose
      obtain ⟨hmem, ht⟩ := ih hrest hchoose
      exact ⟨List.mem_cons_of_mem _ hmem, ht⟩
    · rw [if_neg hp] at hchoose
      cases hchoose
      exact ⟨List.mem_cons_self, rfl⟩

theorem place_of_plain {x : Cursor × ℤ × Mem} (h : q.In m) (hreq : ¬ NotReplayed q.cmd.code)
    (hplain : ∀ c ∈ candidates fs rp, Plain q frame c m)
    (hplace : place fs frame rp m = some x) : Plain q frame x.1 x.2.2 := by
  rcases hfile : rp.replayFile with _ | c
  · simp only [candidates, hfile, List.forall_mem_map] at hplain
    simp only [place, hfile] at hplace
    obtain ⟨y, hchoose, rfl⟩ := Option.map_eq_some_iff.mp hplace
    obtain ⟨hmem, hy⟩ := choose_of_plain (s := (rp.previousOp, m)) h hreq hplain hchoose
    rw [hy]
    exact hplain _ hmem
  · simp only [candidates, hfile, List.forall_mem_singleton] at hplain
    simp only [place, hfile] at hplace
    cases hplace
    exact hplain

/-- **Ordinary records give ordinary answers.** -/
theorem call_of_plain (h : q.In m) (hreq : ¬ NotReplayed q.cmd.code)
    (hplain : ∀ c ∈ candidates fs rp, Plain q frame c m) :
    (call fs (frame, m) rp).1.1 ≠ .returned notReplay ∧ (call fs (frame, m) rp).1.1 ≠ .fault := by
  rw [Ne, Ne, notReplay_iff h hreq, fault_iff h hreq]
  constructor
  · rintro ⟨x, hplace, hcarries⟩
    exact (place_of_plain h hreq hplain hplace).notReplay hcarries
  · rintro ⟨x, hplace, hover⟩
    exact (place_of_plain h hreq hplain hplace).fits hover

/-- The record of a request that is sent again is an ordinary one. -/
theorem plain_of_resends {k : Completed} {tl : List UInt8} (hk : Resends k m) (h : k.req.In m)
    (hc : c.rest = k.encoding ++ tl) (hretry : k.resp ≠ retryFailed)
    (hnot : k.resp ≠ notReplay) : Plain k.req frame c m := by
  have hreq := not_notReplayed hk.logged
  have hout : (replayRequest frame c m 0).1 = .answer k.resp := by rw [hk.replayRequest hc]
  have hcarries {v : ℤ} (hv : Carries k.req frame c m v) : k.resp = v := by
    rw [← answer_iff_carries (p := 0) h hreq, hout] at hv
    exact Outcome.answer.inj hv
  refine ⟨fun hover => ?_, fun hv => hretry (hcarries hv), fun hv => hnot (hcarries hv)⟩
  rw [← fault_iff_overlong (p := 0) h hreq, hout] at hover
  cases hover

end Replayer

end HEDB
