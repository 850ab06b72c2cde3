import HEDB.Interface.Modes

/-!
# The request buffer

The buffer is made at the first request: a shared region, or a block from `calloc` if
`enable_replay_mode` has been called by then. Later requests and the exit handler do not look at
what it is. They look at `replayMode`, which may have been set in between (`usesRightly_iff`).

* A request that the replayer does not answer is posted in the buffer and waited for, also when no
  server sees it: encryption and decryption in replay mode (`stuck_iff`).
* A shared region is passed to `free` when `enable_replay_mode` was called after the first request.
-/

namespace HEDB

namespace Backend

variable {pid : ℕ} {files : String → List UInt8} {es : List Event} {b : Backend}
  {kind : Kind} {m : Mem} {q : Request} {env : Env}

/-- The event uses the buffer as what it is: it does not wait for a server on a private buffer, and
releases the buffer in the way in which it was obtained. -/
def UsesRightly (b : Backend) (e : Event) : Prop :=
  (b.step e).1 ≠ .stuck ∧
    ∀ kind how, (b.step e).1 = .released kind how → (kind = .shared ↔ how = .freeBuffer)

/-- The event goes together with the buffer: on a private buffer there is no encryption or
decryption and no answer from a record whose `resp` is `NOT_REPLAY`, and a process with a shared
region exits without having called `enable_replay_mode`. -/
def GoesWith (es : List Event) (b : Backend) : Event → Prop
  | .mode _ => True
  | .request q env => nextKind es = .calloc → ¬ Replayer.NotReplayed q.cmd.code ∧
      ∀ m, b.getInstance env.region = some (.calloc, m) →
        ∀ x, Replayer.place b.files env.frame b.currentReplayer (q.serializeTo m) = some x →
          ¬ Replayer.Carries q env.frame x.1 x.2.2 Replayer.notReplay
  | .exit => bufferKind es = some .shared → es.any Event.isReplay = false

/-- Encryption and decryption are not replayed. -/
theorem replayed_of_notReplayed (hq : Replayer.NotReplayed q.cmd.code) (frame m : Mem) :
    (b.replayed frame (q.serializeTo m)).1 = .returned Replayer.notReplay := by
  have ht : (q.serializeTo m).int Layout.reqType = q.cmd.code := (q.in_serializeTo m).reqType
  rw [replayed, Replayer.call, Replayer.replay, if_pos (by rwa [ht])]

/-! ## What an event puts out -/

/-- A request waits for ever exactly when it is left to the server in a private buffer. -/
theorem stuck_iff (hget : b.getInstance env.region = some (kind, m)) :
    (b.request q env).1 = .stuck ↔ kind = .calloc ∧ (b.replayMode = true →
      (b.replayed env.frame (q.serializeTo m)).1 = .returned Replayer.notReplay) := by
  cases ends_request (q := q) hget with
  | stuck hmode hkind hout => exact iff_of_true hout ⟨hkind, hmode⟩
  | answered hmode hret _ hout =>
    rw [hout]
    exact iff_of_false Out.noConfusion fun h => hret (h.2 hmode)
  | fault hmode hret hout =>
    rw [hout, hret]
    exact iff_of_false Out.noConfusion fun h => Replayer.Ret.noConfusion (h.2 hmode)
  | executed _ hkind _ _ _ hout =>
    rw [hout, hkind]
    exact iff_of_false Out.noConfusion fun h => Kind.noConfusion h.1

theorem request_ne_released {how : Release} : (b.request q env).1 ≠ .released kind how := by
  rcases hget : b.getInstance env.region with _ | ⟨kind', m⟩
  · rw [request, hget]
    exact Out.noConfusion
  · cases ends_request (q := q) hget with
    | stuck _ _ hout => rw [hout]; exact Out.noConfusion
    | answered _ _ _ hout => rw [hout]; exact Out.noConfusion
    | fault _ _ hout => rw [hout]; exact Out.noConfusion
    | executed _ _ _ _ _ hout => rw [hout]; exact Out.noConfusion

/-- A mode call does not touch the buffer. -/
theorem usesRightly_mode (c : ModeCall) : b.UsesRightly (.mode c) := by
  have hout : (b.modeCall c).1 = .returned ∨ (b.modeCall c).1 = .couldNotOpen ∨
      (b.modeCall c).1 = .fault := by
    unfold modeCall
    split_ifs
    · cases c with
      | record s dir => exact .inl rfl
      | replay s dir mode entries =>
        cases entries with
        | none => exact .inr (.inl rfl)
        | some entries => exact .inl rfl
    · exact .inr (.inr rfl)
  rw [UsesRightly, step]
  rcases hout with hout | hout | hout <;>
    exact ⟨by rw [hout]; exact Out.noConfusion, fun _ _ h => Out.noConfusion (hout.symm.trans h)⟩

theorem usesRightly_request_iff (hi : b.Inv pid es) (q : Request) (env : Env) :
    b.UsesRightly (.request q env) ↔ GoesWith es b (.request q env) := by
  have huses : b.UsesRightly (.request q env) ↔ (b.request q env).1 ≠ .stuck :=
    and_iff_left fun _ _ h => absurd h request_ne_released
  rw [huses, GoesWith]
  rcases hget : b.getInstance env.region with _ | ⟨kind, m⟩
  · -- `getSharedBuffer` has given up, so replay mode is off and the buffer would be shared.
    refine iff_of_true (by rw [request, hget]; exact Out.noConfusion) fun hkind => ?_
    obtain ⟨kind, m, hget'⟩ := exists_getInstance
      (hi.replayMode.trans (any_isReplay_of_calloc hkind)) env.region
    cases hget.symm.trans hget'
  · rw [Ne, stuck_iff hget, nextKind_of_getInstance hi hget]
    constructor
    · intro hno hkind
      have hret : (b.replayed env.frame (q.serializeTo m)).1 ≠ .returned Replayer.notReplay :=
        fun hret => hno ⟨hkind, fun _ => hret⟩
      have hreq : ¬ Replayer.NotReplayed q.cmd.code := fun hq =>
        hret (replayed_of_notReplayed hq _ _)
      refine ⟨hreq, fun m' hget' x hplace hcarries => ?_⟩
      cases hget'
      exact hret ((Replayer.notReplay_iff (q.in_serializeTo m) hreq).mpr ⟨x, hplace, hcarries⟩)
    · rintro hgoes ⟨rfl, hserver⟩
      have hmode : b.replayMode = true :=
        hi.replayMode.trans (any_isReplay_of_calloc (nextKind_of_getInstance hi hget))
      obtain ⟨hreq, hno⟩ := hgoes rfl
      obtain ⟨x, hplace, hcarries⟩ :=
        (Replayer.notReplay_iff (q.in_serializeTo m) hreq).mp (hserver hmode)
      exact hno m rfl x hplace hcarries

theorem usesRightly_exit_iff (hi : b.Inv pid es) :
    b.UsesRightly .exit ↔ GoesWith es b .exit := by
  rw [UsesRightly, GoesWith, step, ← hi.kind, ← hi.replayMode, atExit]
  rcases hbuf : b.reqBuffer with _ | ⟨kind, m⟩
  · exact iff_of_true ⟨Out.noConfusion, fun _ _ h => Out.noConfusion h⟩ fun h => by cases h
  · have hcalloc : kind = .calloc → b.replayMode = true := by
      rintro rfl
      have hkind : nextKind es = .calloc := by rw [nextKind, ← hi.kind, hbuf]; rfl
      exact hi.replayMode.trans (any_isReplay_of_calloc hkind)
    constructor
    · rintro ⟨-, hrel⟩ hkind
      have hiff := hrel kind _ rfl
      cases hkind
      by_contra hmode
      rw [if_pos (by simpa using hmode)] at hiff
      exact absurd (hiff.mp rfl) Release.noConfusion
    · intro hgoes
      refine ⟨Out.noConfusion, ?_⟩
      rintro kind' how hrel
      cases hrel
      cases kind with
      | shared => rw [hgoes rfl]; simp
      | calloc => rw [hcalloc rfl]; simp

/-- **The buffer is used as what it is exactly by the events that go with it.** -/
theorem usesRightly_iff (h : Runs (start pid files) es b) (e : Event) :
    b.UsesRightly e ↔ GoesWith es b e := by
  have hi := inv_of_runs h
  cases e with
  | mode c => exact iff_of_true (usesRightly_mode c) trivial
  | request q env => exact usesRightly_request_iff hi q env
  | exit => exact usesRightly_exit_iff hi

/-! ## A private buffer that is posted, and a region that is freed -/

/-- A replayer without logs answers all requests in a private buffer. -/
theorem usesRightly_without_logs : ∃ b, Runs (start 7 fun _ => []) [.mode (.record "q" ""),
      .request Replayer.samplePlus.req quietEnv, .mode (.replay "p" "" "" (some []))] b ∧
    b.reqBuffer.map Prod.fst = some .calloc ∧
    b.UsesRightly (.request Replayer.sampleCmp.req quietEnv) := by
  have hstart : Runs (start 7 fun _ => []) [] _ := .nil
  have hrun := (hstart.cons (.mode (.replay "p" "" "" (some [])))
    (congrArg Prod.snd (if_pos (by decide)))).cons (.request Replayer.samplePlus.req quietEnv) rfl
  have hrun' := hrun.cons (.mode (.record "q" "")) (congrArg Prod.snd (if_pos (by decide)))
  refine ⟨_, hrun', rfl, (usesRightly_iff hrun' _).mpr fun _ => ⟨by decide, ?_⟩⟩
  rintro m - x ⟨⟩

/-- **A buffer is used as what it is not.** An encryption after `enable_replay_mode` waits for ever
on a private buffer, and a process that calls `enable_replay_mode` after its first request passes a
shared region to `free`. -/
theorem buffer_misused :
    (∃ b, Runs (start 7 fun _ => []) [.mode (.replay "p" "" "" (some []))] b ∧
      (b.step (.request (.enc .int (Replayer.zeroBytes _)) quietEnv)).1 = .stuck) ∧
    ∃ b, Runs (start 7 fun _ => []) [.mode (.replay "p" "" "" (some [])),
        .request Replayer.samplePlus.req quietEnv] b ∧
      (b.step .exit).1 = .released .shared .free := by
  constructor
  · refine ⟨_, .cons _ .nil (congrArg Prod.snd (if_pos (by decide))), ?_⟩
    exact (stuck_iff rfl).mpr ⟨rfl, fun _ => replayed_of_notReplayed (by decide) _ _⟩
  · exact ⟨_, .cons _ (.cons _ .nil rfl) (congrArg Prod.snd (if_pos (by decide))), rfl⟩

end Backend

end HEDB
