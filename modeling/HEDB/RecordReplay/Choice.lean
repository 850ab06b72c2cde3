import HEDB.RecordReplay.Logs

/-!
# The choice of a log

At its first request the replayer tries the logs of its directory in order. It passes over those
that return `-RETRY_FAILED` (`PassedOver`), and takes the first of the others (`choose`): a log that
answers, or one at which `replay_request` raises an error, out of the loop. From then on the session
stays with this log, so that it is the session of this log alone (`replays_of_choose`).
-/

namespace HEDB

open Layout

namespace Replayer

section Choice

variable (fs : String → List UInt8) (frame : Mem)

/-- The first request on a log that has just been opened. A state is the last opcode that was
answered, and the buffer. -/
def attempt (s : ℤ × Mem) (name : String) : Ret × Replayer × Mem :=
  answerFrom frame (start [name] s.1) ⟨fs name, 0⟩ s.2

/-- The log returns `-RETRY_FAILED` for the first request. -/
def PassedOver (s : ℤ × Mem) (name : String) : Prop :=
  (attempt fs frame s name).1 = .returned retryFailed

instance (s : ℤ × Mem) (name : String) : Decidable (PassedOver fs frame s name) :=
  inferInstanceAs (Decidable (_ = _))

/-- What a log leaves behind that is passed over. A record with `resp = 10086` has been copied. -/
def passing (s : ℤ × Mem) (name : String) : ℤ × Mem :=
  ((attempt fs frame s name).2.1.previousOp, (attempt fs frame s name).2.2)

/-- The first log that is not passed over, and the state in which it is tried. -/
def choose (s : ℤ × Mem) : List String → Option (String × ℤ × Mem)
  | [] => none
  | name :: rest =>
    if PassedOver fs frame s name then choose (passing fs frame s name) rest else some (name, s)

end Choice

/-- The session gets the recorded answers of `ks` for the requests `is`. -/
def Replays (fs : String → List UInt8) (rp : Replayer) (ks : List Completed)
    (is : List (Mem × Mem)) : Prop :=
  List.Forall₂ Answers ks (readAll (call fs) is rp).1

variable {fs : String → List UInt8} {frame m : Mem} {names : List String} {name : String}

/-! ## What `replay_request` does to the buffer -/

/-- No error is raised. -/
def NoError : Outcome → Prop
  | .error _ _ _ _ => False
  | _ => True

/-- The buffer has the request type of `m`, and it is `m` if the record does not fit the request. No
error is raised. -/
structure Keeps (m : Mem) (x : Outcome × Cursor × Mem) : Prop where
  noError : NoError x.1
  reqType : x.2.2.int reqType = m.int reqType
  buffer : x.1 = .retryFailed → x.2.2 = m

section Buffer

variable (frame : Mem) (c : Cursor) {m : Mem}

theorem keeps_retryFailed (c : Cursor) : Keeps m (.retryFailed, c, m) :=
  ⟨trivial, rfl, fun _ => rfl⟩

theorem keeps_fault (c : Cursor) : Keeps m (.fault, c, m) := ⟨trivial, rfl, fun _ => rfl⟩

theorem keeps_answer (v : ℤ) (c : Cursor) : Keeps m (.answer v, c, m) :=
  ⟨trivial, rfl, fun _ => rfl⟩

theorem keeps_write (v : ℤ) (c : Cursor) (bs : List UInt8) {o : ℕ} (h : 8 ≤ o) :
    Keeps m (.answer v, c, m.write o bs) := by
  refine ⟨trivial, ?_, Outcome.noConfusion⟩
  rw [Mem.int, Mem.int, Mem.read_write_of_disjoint]
  exact .inl h

theorem keeps_ite {p : Prop} [Decidable p] {x y : Outcome × Cursor × Mem}
    (hx : Keeps m x) (hy : Keeps m y) : Keeps m (if p then x else y) := by
  split
  · exact hx
  · exact hy

variable (m)

theorem keeps_replayCmp (w : ℕ) : Keeps m (replayCmp frame c m w) := by
  unfold replayCmp
  dsimp only
  split
  · exact keeps_ite (keeps_retryFailed _) (keeps_write _ _ _ (by simp; omega))
  · exact keeps_fault _

theorem keeps_replayCalc (w : ℕ) : Keeps m (replayCalc frame c m w) := by
  unfold replayCalc
  dsimp only
  split
  · exact keeps_ite (keeps_retryFailed _) (keeps_write _ _ _ (by simp; omega))
  · exact keeps_fault _

theorem keeps_replayBulk (w : ℕ) : Keeps m (replayBulk frame c m w) := by
  unfold replayBulk
  dsimp only
  split
  · exact keeps_ite (keeps_retryFailed _) (keeps_ite (keeps_fault _)
      (keeps_ite (keeps_write _ _ _ (by simp; omega)) (keeps_retryFailed _)))
  · exact keeps_fault _

theorem keeps_replayYear : Keeps m (replayYear frame c m) := by
  unfold replayYear
  dsimp only
  split
  · exact keeps_ite (keeps_retryFailed _) (keeps_write _ _ _ (by simp))
  · exact keeps_fault _

theorem keeps_replayStrCmp : Keeps m (replayStrCmp frame c m) := by
  unfold replayStrCmp
  dsimp only
  apply keeps_ite (keeps_retryFailed _)
  apply keeps_ite (keeps_fault _)
  split
  · exact keeps_write _ _ _ (by simp)
  · exact keeps_fault _

theorem keeps_replaySubstring : Keeps m (replaySubstring frame c m) := by
  unfold replaySubstring
  dsimp only
  apply keeps_ite (keeps_retryFailed _)
  apply keeps_ite (keeps_fault _)
  split
  · exact keeps_ite (keeps_retryFailed _) (keeps_write _ _ _ (by simp))
  · exact keeps_fault _

theorem keeps_replayConcat : Keeps m (replayConcat frame c m) := by
  unfold replayConcat
  dsimp only
  apply keeps_ite (keeps_retryFailed _)
  apply keeps_ite (keeps_fault _)
  split
  · exact keeps_ite (keeps_retryFailed _) (keeps_write _ _ _ (by simp))
  · exact keeps_fault _

/-- After the opcode, `replay_request` raises no error. -/
theorem keeps_replayBranch : Keeps m (replayBranch frame c m) := by
  unfold replayBranch
  dsimp only
  repeat' split
  · exact keeps_replayCmp _ _ _ _
  · exact keeps_replayBulk _ _ _ _
  · exact keeps_replayCalc _ _ _ _
  · exact keeps_replayCmp _ _ _ _
  · exact keeps_replayBulk _ _ _ _
  · exact keeps_replayCalc _ _ _ _
  · exact keeps_replayStrCmp _ _ _
  · exact keeps_replaySubstring _ _ _
  · exact keeps_replayConcat _ _ _
  · exact keeps_replayCmp _ _ _ _
  · exact keeps_replayYear _ _ _
  · exact keeps_answer _ _
  · exact keeps_answer _ _

/-- `replay_request` does not write to the header. -/
theorem reqType_replayRequest (previousOp : ℤ) :
    (replayRequest frame c m previousOp).2.2.int reqType = m.int reqType := by
  simp only [replayRequest]
  split
  · rfl
  · exact (keeps_replayBranch _ _ _).reqType

/-- A record that does not fit the request leaves the buffer as it is. -/
theorem buffer_of_retryFailed (previousOp : ℤ)
    (h : (replayRequest frame c m previousOp).1 = .retryFailed) :
    (replayRequest frame c m previousOp).2.2 = m := by
  simp only [replayRequest] at h ⊢
  split at h
  · cases h
  · rw [if_neg ‹_›]
    exact (keeps_replayBranch _ _ _).buffer h

end Buffer

/-! ## The names of the other logs do not matter once a log is open -/

/-- An answer from an open log does not depend on the names of the logs. -/
theorem answerFrom_filenames (frame m : Mem) (rp : Replayer) (c : Cursor) (names : List String) :
    answerFrom frame { rp with filenames := names } c m =
      ((answerFrom frame rp c m).1, { (answerFrom frame rp c m).2.1 with filenames := names },
        (answerFrom frame rp c m).2.2) := by
  simp only [answerFrom]
  rcases replayRequest frame c m rp.previousOp with ⟨_ | _ | _ | _, c', m'⟩ <;> rfl

theorem isSome_answerFrom (frame m : Mem) (rp : Replayer) (c : Cursor) :
    (answerFrom frame rp c m).2.1.replayFile.isSome := by
  simp only [answerFrom]
  rcases replayRequest frame c m rp.previousOp with ⟨_ | _ | _ | _, c', m'⟩ <;> rfl

/-- Two replayers with the same open log. -/
def SameOpen (rp rp' : Replayer) : Prop :=
  rp.replayFile.isSome ∧ rp' = { rp with filenames := rp'.filenames }

theorem call_congr (i : Mem × Mem) (rp rp' : Replayer) (h : SameOpen rp rp') :
    (call fs i rp).1 = (call fs i rp').1 ∧ SameOpen (call fs i rp).2 (call fs i rp').2 := by
  obtain ⟨hsome, hrp⟩ := h
  rw [hrp]
  by_cases hreq : NotReplayed (i.2.int reqType)
  · simp only [call, replay, if_pos hreq]
    exact ⟨trivial, hsome, rfl⟩
  · obtain ⟨c, hc⟩ := Option.isSome_iff_exists.mp hsome
    have hreplay (names : List String) : replay fs i.1 { rp with filenames := names } i.2 =
        answerFrom i.1 { rp with filenames := names } c i.2 := by
      rw [replay, if_neg hreq, hc]
    have hrp' := hreplay rp.filenames
    simp only [call, hrp', hreplay, answerFrom_filenames]
    exact ⟨trivial, isSome_answerFrom i.1 i.2 rp c, rfl⟩

/-! ## The log that is chosen -/

theorem tryFiles_cons (rp : Replayer) (m : Mem) (name : String) (rest : List String) :
    tryFiles fs frame rp m (name :: rest) =
      if (answerFrom frame rp ⟨fs name, 0⟩ m).1 = .returned retryFailed then
        tryFiles fs frame { (answerFrom frame rp ⟨fs name, 0⟩ m).2.1 with replayFile := none }
          (answerFrom frame rp ⟨fs name, 0⟩ m).2.2 rest
      else answerFrom frame rp ⟨fs name, 0⟩ m := by
  rw [tryFiles]
  rcases answerFrom frame rp ⟨fs name, 0⟩ m with ⟨v | _ | _, rp', m'⟩
  · simp only [Ret.returned.injEq]
  · rfl
  · rfl

/-- One log of the loop, in terms of the log alone. -/
theorem tryFiles_start (s : ℤ × Mem) (all rest : List String) (name : String) :
    tryFiles fs frame (start all s.1) s.2 (name :: rest) =
      if PassedOver fs frame s name then
        tryFiles fs frame (start all (passing fs frame s name).1) (passing fs frame s name).2 rest
      else ((attempt fs frame s name).1, { (attempt fs frame s name).2.1 with filenames := all },
        (attempt fs frame s name).2.2) := by
  have h := answerFrom_filenames frame s.2 (start [name] s.1) ⟨fs name, 0⟩ all
  rw [tryFiles_cons]
  change answerFrom frame (start all s.1) ⟨fs name, 0⟩ s.2 = _ at h
  rw [h]
  rfl

/-- The loop over the logs ends at the log that is chosen. -/
theorem tryFiles_of_choose (all : List String) {s t : ℤ × Mem}
    (h : choose fs frame s names = some (name, t)) :
    tryFiles fs frame (start all s.1) s.2 names =
      ((attempt fs frame t name).1, { (attempt fs frame t name).2.1 with filenames := all },
        (attempt fs frame t name).2.2) := by
  induction names generalizing s with
  | nil => cases h
  | cons first rest ih =>
    rw [choose] at h
    rw [tryFiles_start]
    by_cases hp : PassedOver fs frame s first
    · rw [if_pos hp] at h ⊢
      exact ih h
    · rw [if_neg hp] at h ⊢
      cases h
      rfl

/-! ## Sessions -/

section Sessions

variable {ks : List Completed} {k : Completed} {i : Mem × Mem} {is : List (Mem × Mem)}
  {s t : ℤ × Mem} {p : ℤ}

theorem choose_of_not_passedOver (h : ¬ PassedOver fs frame s name) (rest : List String) :
    choose fs frame s (name :: rest) = some (name, s) := by
  rw [choose, if_neg h]

theorem buffer_answerFrom (rp : Replayer) (c : Cursor) :
    (answerFrom frame rp c m).2.2 = (replayRequest frame c m rp.previousOp).2.2 := by
  simp only [answerFrom]
  rcases replayRequest frame c m rp.previousOp with ⟨_ | _ | _ | _, c', m'⟩ <;> rfl

theorem passedOver_iff_outcome :
    PassedOver fs frame s name ↔
      (replayRequest frame ⟨fs name, 0⟩ s.2 s.1).1 = .answer retryFailed ∨
        (replayRequest frame ⟨fs name, 0⟩ s.2 s.1).1 = .retryFailed := by
  simp only [PassedOver, attempt, answerFrom, start]
  rcases replayRequest frame ⟨fs name, 0⟩ s.2 s.1 with ⟨v | _ | _ | _, c', m'⟩ <;> simp

theorem reqType_passing (s : ℤ × Mem) (name : String) :
    (passing fs frame s name).2.int reqType = s.2.int reqType := by
  rw [passing, attempt, buffer_answerFrom]
  exact reqType_replayRequest frame _ s.2 _

/-- The log that is chosen is tried on the same request, and it is not passed over. -/
theorem of_choose (h : choose fs frame s names = some (name, t)) :
    t.2.int reqType = s.2.int reqType ∧ ¬ PassedOver fs frame t name := by
  induction names generalizing s with
  | nil => cases h
  | cons first rest ih =>
    rw [choose] at h
    by_cases hp : PassedOver fs frame s first
    · rw [if_pos hp] at h
      obtain ⟨htype, hname⟩ := ih h
      exact ⟨htype.trans (reqType_passing s first), hname⟩
    · rw [if_neg hp] at h
      cases h
      exact ⟨rfl, hp⟩

theorem replay_start (hreq : ¬ NotReplayed (s.2.int reqType)) :
    replay fs frame (start names s.1) s.2 = tryFiles fs frame (start names s.1) s.2 names := by
  rw [replay, if_neg hreq]
  rfl

/-- The first call is the one with the chosen log alone. -/
theorem call_of_choose (hs : ¬ NotReplayed (s.2.int reqType))
    (h : choose fs frame s names = some (name, t)) :
    (call fs (frame, s.2) (start names s.1)).1 = (call fs (frame, t.2) (start [name] t.1)).1 ∧
      SameOpen (call fs (frame, s.2) (start names s.1)).2
        (call fs (frame, t.2) (start [name] t.1)).2 := by
  obtain ⟨htype, hname⟩ := of_choose h
  have ht : ¬ NotReplayed (t.2.int reqType) := by rwa [htype]
  simp only [call, replay_start hs, replay_start ht, tryFiles_of_choose _ h,
    tryFiles_of_choose _ (choose_of_not_passedOver hname [])]
  exact ⟨trivial, isSome_answerFrom _ _ _ _, rfl⟩

/-- **The session is the one of the chosen log alone.** -/
theorem replays_of_choose (hs : ¬ NotReplayed (s.2.int reqType))
    (h : choose fs frame s names = some (name, t)) :
    Replays fs (start names s.1) ks ((frame, s.2) :: is) ↔
      Replays fs (start [name] t.1) ks ((frame, t.2) :: is) := by
  obtain ⟨hout, hopen⟩ := call_of_choose hs h
  rw [Replays, Replays, readAll, readAll, hout, readAll_congr call_congr is hopen]

end Sessions

end Replayer

end HEDB
