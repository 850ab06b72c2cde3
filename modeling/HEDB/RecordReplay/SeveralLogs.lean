import HEDB.RecordReplay.Choice
import HEDB.RecordReplay.FixedWidth
import HEDB.RecordReplay.Operands

/-!
# Replay with several logs

A directory holds the logs of several workers. A log is passed over when it starts with a record of
the opcode of the first request that does not answer this request (`passedOver_iff`). A log that
starts with another opcode is not passed over: it raises an error and stays open (`attempt_of_ne`).

When no log before a worker's own answers its first request, the requests of this worker are
therefore answered from its own log exactly if these logs start with the opcode of this request
(`replays_iff`).
-/

namespace HEDB

open Layout

namespace Replayer

section Sessions

variable {fs : String → List UInt8} {frame m : Mem} {names : List String} {name : String}
  {post : List String} {ks : List Completed} {k : Completed} {i : Mem × Mem}
  {is : List (Mem × Mem)} {s : ℤ × Mem}

/-! ## Which logs are passed over -/

variable {tl : List UInt8}

/-- A log that starts with another opcode raises an error and stays open. -/
theorem attempt_of_ne (hk : k.req.Logged) (hspans : (Recorder.spans k.buf k.timestamp).isSome)
    (hfs : fs name = k.encoding ++ tl) (ht : s.2.int reqType ≠ k.req.cmd.code) :
    (attempt fs frame s name).1 = .raised 4 k.req.cmd.code (s.2.int reqType) s.1 ∧
      (attempt fs frame s name).2.1.replayFile = some ⟨fs name, 4⟩ := by
  obtain ⟨tl', hop⟩ := Recorder.encoding_opcode k.holds hk hspans
  have hc : (Cursor.mk (fs name) 0).rest = intBytes k.req.cmd.code ++ (tl' ++ tl) := by
    rw [Cursor.rest, hfs, Completed.encoding, hop, List.append_assoc]
    rfl
  rw [attempt, answerFrom, replayRequest_of_ne ht hc]
  exact ⟨rfl, rfl⟩

/-- So does the first call, if that log is the first one. -/
theorem call_of_ne (hk : k.req.Logged) (hfit : k.req.ResultFits k.buf)
    (hfs : fs name = k.encoding ++ tl) (ht : s.2.int reqType ≠ k.req.cmd.code)
    (hreq : ¬ NotReplayed (s.2.int reqType)) :
    (call fs (frame, s.2) (start (name :: names) s.1)).1.1 =
      .raised 4 k.req.cmd.code (s.2.int reqType) s.1 := by
  have hraise : (attempt fs frame s name).1 = .raised 4 k.req.cmd.code (s.2.int reqType) s.1 :=
    (attempt_of_ne hk (k.isSome_spans hk hfit) hfs ht).1
  have hpass : ¬ PassedOver fs frame s name := by
    rw [PassedOver, hraise]
    exact Ret.noConfusion
  rw [call, replay_start hreq, tryFiles_of_choose _ (choose_of_not_passedOver hpass names)]
  exact hraise

/-- At a record of the same opcode `replay_request` returns its `resp` or `-RETRY_FAILED`. -/
theorem outcome_of_record (frame : Mem) (p : ℤ) (hk : k.req.Logged)
    (hfit : k.req.ResultFits k.buf) {c : Cursor} (hc : c.rest = k.encoding ++ tl)
    (ht : m.int reqType = k.req.cmd.code) :
    (replayRequest frame c m p).1 = .answer k.resp ∨
      (replayRequest frame c m p).1 = .retryFailed := by
  obtain ⟨q, buf, timestamp, h⟩ := k
  cases q with
  | cmp f left right =>
    rw [replayRequest_cmp h ht hc]
    split <;> simp [Completed.resp]
  | calcNum n op left right =>
    rw [replayRequest_calc h ht hc]
    split <;> simp [Completed.resp]
  | bulk n items hn =>
    obtain ⟨l, hl⟩ := replayRequest_bulk h ht hc
    rw [hl]
    split <;> simp [Completed.resp]
  | extractYear input =>
    rw [replayRequest_year h ht hc]
    split <;> simp [Completed.resp]
  | strCmp left right =>
    rw [replayRequest_strCmp (.inl rfl) h ht hc]
    split <;> simp [Completed.resp]
  | strLike left right =>
    rw [replayRequest_strCmp (.inr rfl) h ht hc]
    split <;> simp [Completed.resp]
  | substring str start length =>
    have hres := fitsEncStr_of_le hfit
    rw [replayRequest_substring h hres.1 ht hc, if_pos hres]
    split_ifs <;> simp [Completed.resp]
  | concat left right =>
    have hres := fitsEncStr_of_le hfit
    rw [replayRequest_concat h hres.1 ht hc, if_pos hres]
    split_ifs <;> simp [Completed.resp]
  | enc | dec | strEnc | strDec | evalExpr => exact hk.elim

/-- **A record of the opcode answers exactly its own request**, and the text comparisons of the same
lengths. -/
theorem isAnswered_iff (frame : Mem) (p : ℤ) (hk : k.req.Logged) (hfit : k.req.ResultFits k.buf)
    {c : Cursor} (hc : c.rest = k.encoding ++ tl) (ht : m.int reqType = k.req.cmd.code) :
    IsAnswered frame c m p ↔ SameRequest k m ∨ SameLengthsOnly k m := by
  have hspans := k.isSome_spans hk hfit
  constructor
  · rintro ⟨v, c', m', ha⟩
    by_cases hsame : operandsAt m k.req.cmd = operandsAt k.buf k.req.cmd
    · exact .inl ⟨ht, hsame⟩
    · rcases operandsAt_of_answer k.holds hk hspans ht hc ha with ho | hcmd
      · exact absurd ho hsame
      · obtain ⟨hl, hr⟩ := (isAnswered_iff_sizes hcmd hc ht).mp ⟨v, c', m', ha⟩
        exact .inr ⟨hcmd, ht, hl, hr, hsame⟩
  · rintro (⟨-, ho⟩ | ⟨hcmd, -, hl, hr, -⟩)
    · exact ⟨_, _, _, replayRequest_of_same k.holds hk hfit ht ho hc⟩
    · exact (isAnswered_iff_sizes hcmd hc ht).mpr ⟨hl, hr⟩

/-- **The logs that are passed over**: those that start with a record of the same opcode that does
not answer the request, or that carries the reserved `resp`. -/
theorem passedOver_iff (hk : k.req.Logged) (hfit : k.req.ResultFits k.buf)
    (hfs : fs name = k.encoding ++ tl) :
    PassedOver fs frame s name ↔ s.2.int reqType = k.req.cmd.code ∧
      (¬ (SameRequest k s.2 ∨ SameLengthsOnly k s.2) ∨ k.resp = retryFailed) := by
  have hspans := k.isSome_spans hk hfit
  by_cases ht : s.2.int reqType = k.req.cmd.code
  · have hc : (Cursor.mk (fs name) 0).rest = k.encoding ++ tl := hfs
    rw [passedOver_iff_outcome, ← isAnswered_iff frame s.1 hk hfit hc ht]
    rcases hreq : replayRequest frame ⟨fs name, 0⟩ s.2 s.1 with ⟨out, c', m'⟩
    have hout := outcome_of_record frame s.1 hk hfit hc ht
    rw [hreq] at hout
    simp only [IsAnswered, hreq, ht, true_and]
    rcases hout with rfl | rfl <;> simp
  · rw [PassedOver, (attempt_of_ne hk hspans hfs ht).1]
    exact iff_of_false Ret.noConfusion fun h => ht h.1

/-- The log starts with the record of `k`, which does not answer the request. -/
structure StartsOtherwise (fs : String → List UInt8) (m : Mem) (name : String) (k : Completed) :
    Prop where
  file : ∃ tl, fs name = k.encoding ++ tl
  logged : k.req.Logged
  fits : k.req.ResultFits k.buf
  differs : ¬ (SameRequest k m ∨ SameLengthsOnly k m)

/-- Such a log is passed over and leaves no trace, if its record is one of the same opcode. -/
theorem StartsOtherwise.passing_eq (frame : Mem) (h : StartsOtherwise fs s.2 name k)
    (ht : s.2.int reqType = k.req.cmd.code) :
    PassedOver fs frame s name ∧ passing fs frame s name = s := by
  obtain ⟨tl, hfs⟩ := h.file
  have hc : (Cursor.mk (fs name) 0).rest = k.encoding ++ tl := hfs
  refine ⟨(passedOver_iff h.logged h.fits hfs).mpr ⟨ht, .inl h.differs⟩, ?_⟩
  have hno := h.differs
  rw [← isAnswered_iff frame s.1 h.logged h.fits hc ht] at hno
  rcases hreq : replayRequest frame ⟨fs name, 0⟩ s.2 s.1 with ⟨out, c', m'⟩
  have hout := outcome_of_record frame s.1 h.logged h.fits hc ht
  have hkeeps := buffer_of_retryFailed frame ⟨fs name, 0⟩ s.2 s.1
  rw [hreq] at hout hkeeps
  rcases hout with rfl | rfl
  · exact absurd ⟨_, _, _, hreq⟩ hno
  · simp only [passing, attempt, answerFrom, start, hreq]
    exact Prod.ext rfl (hkeeps rfl)

/-- Otherwise it raises an error. -/
theorem StartsOtherwise.raised (frame : Mem) (h : StartsOtherwise fs s.2 name k)
    (ht : s.2.int reqType ≠ k.req.cmd.code) :
    (attempt fs frame s name).1 = .raised 4 k.req.cmd.code (s.2.int reqType) s.1 := by
  obtain ⟨tl, hfs⟩ := h.file
  exact (attempt_of_ne h.logged (k.isSome_spans h.logged h.fits) hfs ht).1

/-- The search passes over the logs that do not answer, or ends at the first one of them that starts
with another opcode. -/
theorem choose_append (frame : Mem) {pre : List String} {first : String → Completed}
    (hpre : ∀ x ∈ pre, StartsOtherwise fs s.2 x (first x)) (rest : List String) :
    (∀ x ∈ pre, s.2.int reqType = (first x).req.cmd.code) ∧
        choose fs frame s (pre ++ rest) = choose fs frame s rest ∨
      ∃ x ∈ pre, s.2.int reqType ≠ (first x).req.cmd.code ∧
        choose fs frame s (pre ++ rest) = some (x, s) := by
  induction pre with
  | nil => exact .inl ⟨List.forall_mem_nil _, rfl⟩
  | cons x pre ih =>
    obtain ⟨hx, hpre⟩ := List.forall_mem_cons.mp hpre
    by_cases ht : s.2.int reqType = (first x).req.cmd.code
    · obtain ⟨hpass, heq⟩ := hx.passing_eq frame ht
      simp only [List.cons_append, choose, if_pos hpass, heq]
      rcases ih hpre with ⟨hsame, hchoose⟩ | ⟨y, hy, hne, hchoose⟩
      · exact .inl ⟨List.forall_mem_cons.mpr ⟨ht, hsame⟩, hchoose⟩
      · exact .inr ⟨y, List.mem_cons_of_mem _ hy, hne, hchoose⟩
    · refine .inr ⟨x, List.mem_cons_self, ht, choose_of_not_passedOver ?_ _⟩
      rw [PassedOver, hx.raised frame ht]
      exact Ret.noConfusion

/-- The log of a request that is sent again is not passed over. -/
theorem not_passedOver_of_resends (hs : Resends k s.2) (hfs : fs name = k.encoding ++ tl)
    (hresp : k.resp ≠ retryFailed) : ¬ PassedOver fs frame s name := by
  have hc : (Cursor.mk (fs name) 0).rest = k.encoding ++ tl := hfs
  rw [PassedOver, attempt, (answerFrom_of_resends frame _ hs hc).1, Ret.returned.injEq]
  exact hresp

/-- A worker's log answers its requests when it is the one that is chosen. -/
theorem replays_of_choose_own {p : ℤ}
    (hchoose : choose fs i.1 (p, i.2) names = choose fs i.1 (p, i.2) (name :: post))
    (hfs : fs name = (k :: ks).flatMap Completed.encoding ++ tl) (hresp : k.resp ≠ retryFailed)
    (his : List.Forall₂ (fun k i => Resends k i.2) (k :: ks) (i :: is)) :
    Replays fs (start names p) (k :: ks) (i :: is) := by
  obtain ⟨hi, hrest⟩ := List.forall₂_cons.mp his
  rw [List.flatMap_cons, List.append_assoc] at hfs
  have hname : ¬ PassedOver fs i.1 (p, i.2) name := by
    apply not_passedOver_of_resends hi hfs hresp
  have hreq : ¬ NotReplayed (i.2.int reqType) := by
    rw [hi.reqType]
    exact not_notReplayed hi.logged
  rw [choose_of_not_passedOver hname] at hchoose
  obtain ⟨hout, hbefore⟩ := next_start p hfs hresp i hi
  rw [replays_of_choose (s := (p, i.2)) hreq hchoose, Replays, readAll, List.forall₂_cons, hout]
  exact ⟨answers_replayed hi, (readAll_spec reads_call hrest hbefore).1⟩

/-! ## Directories of logs -/

/-- Each log of the directory was recorded by one worker: `logs` gives the requests that it
holds. -/
def Recorded (fs : String → List UInt8) (names : List String) (logs : String → List Completed) :
    Prop :=
  ∀ x ∈ names, (∀ k ∈ logs x, k.req.Logged) ∧
    ∃ file R, recordRun file (logs x) = some R ∧ fs x = R.file

variable {logs : String → List Completed}

theorem Recorded.file_eq (h : Recorded fs names logs) (hname : name ∈ names)
    (hlog : logs name = k :: ks) :
    k.req.Logged ∧ ∃ tl, fs name = (k :: ks).flatMap Completed.encoding ++ tl := by
  obtain ⟨hlogged, file, R, hR, hfs⟩ := h name hname
  rw [hlog] at hlogged hR
  obtain ⟨tl, hfile⟩ := file_of_log hR
  exact ⟨hlogged k List.mem_cons_self, tl, hfs.trans hfile⟩

/-- **When a worker's requests get the answers of its log, in a directory of several logs.** The
logs before its own do not answer the first request. They must then start with a record of the
opcode of this request, since another opcode raises an error. -/
theorem replays_iff {pre : List String} {first : String → Completed}
    (hrec : Recorded fs (pre ++ name :: post) logs)
    (hfits : ∀ x, ∀ k ∈ logs x, k.req.ResultFits k.buf)
    (hlog : logs name = k :: ks) (hresp : k.resp ≠ retryFailed)
    (his : List.Forall₂ (fun k i => SameRequest k i.2) (logs name) (i :: is))
    (hfirst : ∀ x ∈ pre, (logs x).head? = some (first x))
    (hdiff : ∀ x ∈ pre, ¬ (SameRequest (first x) i.2 ∨ SameLengthsOnly (first x) i.2)) (p : ℤ) :
    Replays fs (start (pre ++ name :: post) p) (logs name) (i :: is) ↔
      ∀ x ∈ pre, (first x).req.cmd = k.req.cmd := by
  have hown : name ∈ pre ++ name :: post := List.mem_append_right _ List.mem_cons_self
  obtain ⟨hlogged, tl, hfs⟩ := hrec.file_eq hown hlog
  have hresends : List.Forall₂ (fun k i => Resends k i.2) (logs name) (i :: is) :=
    ((List.forall₂_and_left _ _).mpr
      ⟨fun k hk => And.intro ((hrec name hown).1 k hk) (hfits name k hk), his⟩).imp
      fun _ _ ⟨⟨hk, hfit⟩, ht, ho⟩ => resends_of_same hk hfit ht ho
  have hpre : ∀ x ∈ pre, StartsOtherwise fs i.2 x (first x) := by
    intro x hx
    obtain ⟨ks', hks'⟩ := List.head?_eq_some_iff.mp (hfirst x hx)
    obtain ⟨hlogged', tl', hfs'⟩ := hrec.file_eq (List.mem_append_left _ hx) hks'
    rw [List.flatMap_cons, List.append_assoc] at hfs'
    exact ⟨⟨_, hfs'⟩, hlogged', hfits x _ (hks' ▸ List.mem_cons_self), hdiff x hx⟩
  rw [hlog] at his hresends ⊢
  have ht := (List.forall₂_cons.mp his).1.1
  rcases choose_append i.1 (s := (p, i.2)) hpre (name :: post) with
    ⟨hsame, hchoose⟩ | ⟨x, hx, hne, hchoose⟩
  · refine iff_of_true (replays_of_choose_own hchoose hfs hresp hresends) fun x hx => ?_
    exact Cmd.code_injective ((hsame x hx).symm.trans ht)
  · refine iff_of_false (fun h => ?_) fun h => hne (by rw [h x hx]; exact ht)
    have hreq : ¬ NotReplayed (i.2.int reqType) := by
      rw [ht]
      exact not_notReplayed hlogged
    obtain ⟨⟨hret, -⟩, -⟩ := List.forall₂_cons.mp h
    rw [call, replay_start (s := (p, i.2)) hreq, tryFiles_of_choose _ hchoose,
      (hpre x hx).raised i.1 hne] at hret
    cases hret

/-! ## A directory of two logs -/

/-- The logs of two workers. -/
def twoLogs (first : Completed) (name : String) : List Completed :=
  if name = "a.log" then [first] else [samplePlus, sampleCmp]

/-- The requests of the second worker, sent again. -/
def resent : List (Mem × Mem) := [(Mem.zero, samplePlus.buf), (Mem.zero, sampleCmp.buf)]

theorem forall₂_resent :
    List.Forall₂ (fun k i => k.req.In i.2) [samplePlus, sampleCmp] resent :=
  .cons samplePlus.holds (.cons sampleCmp.holds .nil)

theorem fixedWidth_twoLogs {first : Completed} (h : first.req.FixedWidth) (x : String) :
    ∀ k ∈ twoLogs first x, k.req.FixedWidth := by
  rw [twoLogs]
  split
  · exact List.forall_mem_singleton.mpr h
  · simp [samplePlus, sampleCmp, Request.FixedWidth]

theorem exists_twoLogs {first : Completed} (h : first.req.FixedWidth) :
    ∃ fs, Recorded fs ["a.log", "b.log"] (twoLogs first) := by
  have hfixed := fixedWidth_twoLogs h
  choose R hR using fun x => recordRun_isSome [] (twoLogs first x) fun k hk =>
    ⟨(hfixed x k hk).logged, (hfixed x k hk).resultFits _⟩
  exact ⟨fun x => (R x).file, fun x _ => ⟨fun k hk => (hfixed x k hk).logged, [], R x, hR x, rfl⟩⟩

/-- A sum of other operands than `samplePlus`. -/
def otherPlus : Completed :=
  ⟨.calcNum .int .plus (zeroBytes _) ⟨List.replicate _ 1, List.length_replicate⟩, _, zeroBytes _,
    Request.in_serializeTo _ Mem.zero⟩

theorem not_same_otherPlus :
    ¬ (SameRequest otherPlus samplePlus.buf ∨ SameLengthsOnly otherPlus samplePlus.buf) := by
  rintro (⟨-, ho⟩ | ⟨hcmd, -⟩)
  · have hright : samplePlus.buf.read (calcRight encInt32Length) encInt32Length =
        otherPlus.buf.read (calcRight encInt32Length) encInt32Length :=
      List.head_eq_of_cons_eq (List.tail_eq_of_cons_eq ho)
    have hzero : samplePlus.buf.read (calcRight encInt32Length) encInt32Length =
        List.replicate encInt32Length 0 :=
      samplePlus.holds.calcNum.2
    have hone : otherPlus.buf.read (calcRight encInt32Length) encInt32Length =
        List.replicate encInt32Length 1 :=
      otherPlus.holds.calcNum.2
    rw [hzero, hone] at hright
    cases hright
  · rcases hcmd with hcmd | hcmd <;> cases hcmd

theorem replays_second_of_two : ∃ fs, Recorded fs ["a.log", "b.log"] (twoLogs otherPlus) ∧
    List.Forall₂ (fun k i => SameRequest k i.2) (twoLogs otherPlus "b.log") resent ∧
    Replays fs (start ["a.log", "b.log"] 0) (twoLogs otherPlus "b.log") resent := by
  obtain ⟨fs, hrec⟩ := exists_twoLogs (show otherPlus.req.FixedWidth from trivial)
  have hsame : List.Forall₂ (fun k i => SameRequest k i.2) (twoLogs otherPlus "b.log") resent :=
    .cons ⟨samplePlus.holds.reqType, rfl⟩ (.cons ⟨sampleCmp.holds.reqType, rfl⟩ .nil)
  have hfits : ∀ x, ∀ k ∈ twoLogs otherPlus x, k.req.ResultFits k.buf := fun x k hk =>
    (fixedWidth_twoLogs (show otherPlus.req.FixedWidth from trivial) x k hk).resultFits _
  refine ⟨fs, hrec, hsame, ?_⟩
  have hrec' : Recorded fs (["a.log"] ++ "b.log" :: []) (twoLogs otherPlus) := hrec
  have hfirst : ∀ x ∈ ["a.log"], (twoLogs otherPlus x).head? = some otherPlus :=
    List.forall_mem_singleton.mpr rfl
  exact (replays_iff hrec' hfits rfl (by decide) hsame hfirst
    (List.forall_mem_singleton.mpr not_same_otherPlus) 0).mpr (List.forall_mem_singleton.mpr rfl)

/-- **A log that starts with another opcode stops the search**: the second worker's first request
raises an error at the log of the first worker. -/
theorem raised_at_first_of_two : ∃ fs, Recorded fs ["a.log", "b.log"] (twoLogs sampleCmp) ∧
    List.Forall₂ (fun k i => k.req.In i.2) (twoLogs sampleCmp "b.log") resent ∧
    (call fs (Mem.zero, samplePlus.buf) (start ["a.log", "b.log"] 0)).1.1 = .raised 4 50 1 0 ∧
    ¬ Replays fs (start ["a.log", "b.log"] 0) (twoLogs sampleCmp "b.log") resent := by
  obtain ⟨fs, hrec⟩ := exists_twoLogs (show sampleCmp.req.FixedWidth from trivial)
  obtain ⟨-, tl, hfirst⟩ := hrec.file_eq (k := sampleCmp) List.mem_cons_self rfl
  rw [List.flatMap_singleton] at hfirst
  have htype : samplePlus.buf.int reqType = 1 := samplePlus.holds.reqType
  have hcall : (call fs (Mem.zero, samplePlus.buf) (start ["a.log", "b.log"] 0)).1.1 =
      .raised 4 50 1 0 := by
    rw [call_of_ne (k := sampleCmp) (s := (0, samplePlus.buf)) trivial trivial hfirst
      (by rw [htype]; decide) (by rw [htype]; decide), htype]
    rfl
  refine ⟨fs, hrec, forall₂_resent, hcall, fun h => ?_⟩
  obtain ⟨⟨hret, -⟩, -⟩ := List.forall₂_cons.mp h
  rw [hcall] at hret
  cases hret

end Sessions

end Replayer

end HEDB
