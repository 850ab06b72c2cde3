import HEDB.SharedMemory.Signals

/-!
# Concurrent calls are sequential calls

Many backends call at the same time, and their steps, the steps of the server and those of its
children come in any order. With no more backends than regions, none of this shows in an answer: the
bytes from which a backend reads its result are those that the loop of `fork_ops_process` leaves
when it serves the request alone, on the region as the backend found it (`calls_sequential`). So a
call that the plaintext pipeline answers returns 0 and delivers this answer, whatever the others do.

The phase of a region says where its bytes come from (`Phase.Origin`), and every event of the
handshake keeps this.
-/

namespace HEDB

namespace SharedMemory

variable {h : Handler}

/-- Where the bytes of a phase come from, in the log of the region. -/
def Phase.Origin (h : Handler) (log : List Event) : Phase → Prop
  | .preparing b _ q m₀ => .begin b q m₀ ∈ log
  | .sent b _ q m => ∃ m₀, .begin b q m₀ ∈ log ∧ m = q.serializeTo m₀
  | .handling b _ q m => ∃ m₀, .begin b q m₀ ∈ log ∧ m = q.serializeTo m₀
  | .finished b _ q m => ∃ m₀, .begin b q m₀ ∈ log ∧ h.Runs (q.serializeTo m₀) m
  | .copied b _ q m => ∃ m₀, .begin b q m₀ ∈ log ∧ h.Runs (q.serializeTo m₀) m
  | _ => True

theorem Handshake.origin {φ φ' : Phase} {e : Event} {log : List Event}
    (ho : φ.Origin h log) (he : Handshake h φ e φ') : φ'.Origin h (log ++ [e]) := by
  cases he with
  | begin b pid q m => exact List.mem_append_right _ (List.mem_singleton_self _)
  | sent b pid q m => exact ⟨m, List.mem_append_left _ ho, rfl⟩
  | start b pid q m =>
    obtain ⟨m₀, hm₀, rfl⟩ := ho
    exact ⟨m₀, List.mem_append_left _ hm₀, rfl⟩
  | finish b pid q m m' hrun =>
    obtain ⟨m₀, hm₀, rfl⟩ := ho
    exact ⟨m₀, List.mem_append_left _ hm₀, hrun⟩
  | copied b pid q m =>
    obtain ⟨m₀, hm₀, hrun⟩ := ho
    exact ⟨m₀, List.mem_append_left _ hm₀, hrun⟩
  | _ => trivial

/-- An answer is read from what the handler left of the request. -/
theorem answer_origin {log : List Event} {φ : Phase}
    (hlog : Follows (Handshake h) .free log φ) {b : ℕ} {q : Request} {m : Mem}
    (he : .copied b q m ∈ log ∨ .resp b q m ∈ log) :
    ∃ m₀, .begin b q m₀ ∈ log ∧ h.Runs (q.serializeTo m₀) m := by
  have horigin : ∀ pre φ, Follows (Handshake h) .free pre φ → φ.Origin h pre :=
    fun pre φ hpre => hpre.invariant (I := fun pre φ => φ.Origin h pre)
      (fun _ _ _ _ ho he => he.origin ho) trivial
  rcases he with he | he
  · obtain ⟨pre, post, rfl⟩ := List.append_of_mem he
    obtain ⟨φ₁, φ₂, hpre, hstep, -⟩ := hlog.split
    cases hstep with
    | copied _ pid =>
      obtain ⟨m₀, hm₀, hrun⟩ := horigin _ _ hpre
      exact ⟨m₀, List.mem_append_left _ hm₀, hrun⟩
  · obtain ⟨pre, post, rfl⟩ := List.append_of_mem he
    obtain ⟨φ₁, φ₂, hpre, hstep, -⟩ := hlog.split
    cases hstep with
    | resp _ pid =>
      obtain ⟨m₀, hm₀, hrun⟩ := horigin _ _ hpre
      exact ⟨m₀, List.mem_append_left _ hm₀, hrun⟩

end SharedMemory

namespace Target

open SharedMemory

variable {g : Gcm} {F : FloatOps} {T : Target F} {wild : OpsProcess → OpsProcess}

/-- A run of the handler is one call of `serveOn`, with the IV of the child. -/
theorem runs_opsHandler {m m' : Mem} (hrun : (opsHandler g T wild).Runs m m') :
    ∃ iv r, T.serveOn g wild ⟨m, iv⟩ = some r ∧ r.mem = m' := by
  obtain ⟨l, ⟨seed, n, hn, hbefore⟩, hfin⟩ := hrun
  cases n with
  | zero =>
    cases hn
    cases hfin
  | succ n =>
    cases hserve : T.serveOn g wild ⟨m, ⟨leBytes ivSize seed, length_leBytes ..⟩⟩ with
    | none =>
      -- a child that is killed does not go on
      have hfirst : (opsHandler g T wild).step ((opsHandler g T wild).start seed, m) =
          (.killed, m) := by
        simp only [opsHandler, hserve]
      rw [Function.iterate_succ_apply, hfirst, Function.iterate_fixed rfl n] at hn
      cases hn
      cases hfin
    | some r =>
      have hfirst : (opsHandler g T wild).step ((opsHandler g T wild).start seed, m) =
          (.finished, r.mem) := by
        simp only [opsHandler, hserve]
      rw [Function.iterate_succ_apply, hfirst, Function.iterate_fixed rfl n] at hn
      cases hn
      exact ⟨_, r, hserve, rfl⟩

/-- What the server process leaves when it serves a request alone is what the handler leaves. -/
theorem mem_of_runs {q : Request} {m₀ m : Mem}
    (hrun : (opsHandler g T wild).Runs (q.serializeTo m₀) m) :
    ∃ iv, ∀ served, serve g F ⟨q.serializeTo m₀, iv⟩ = some served → served.mem = m := by
  obtain ⟨iv, r, hserve, rfl⟩ := runs_opsHandler hrun
  refine ⟨iv, fun served hserved => ?_⟩
  rw [serve, (q.in_serializeTo m₀).reqType, if_pos q.cmd.code_pos] at hserved
  have hon : T.serveOn g wild ⟨q.serializeTo m₀, iv⟩ = some served := serveOn_of_some hserved
  cases hon.symm.trans hserve
  rfl

/-- What the loop of a child leaves of a request that the plaintext pipeline answers. -/
theorem delivered_of_serve {q : Request} {a : Answer} (ha : plainCall g F q = some a) (m₀ : Mem)
    (iv : Bytes ivSize) : ∃ served, serve g F ⟨q.serializeTo m₀, iv⟩ = some served ∧
      served.mem.int Layout.resp = 0 ∧ a.Delivered g (q.copyResultFrom served.mem) := by
  obtain ⟨served, hcmd, hdel⟩ := answers_of_plainCall (r := ⟨q.serializeTo m₀, iv⟩)
    (q.in_serializeTo m₀) ha
  refine ⟨_, (serve_of_in (q.in_serializeTo m₀)).trans (hcmd.trans (setResp_some 0 served)), ?_, ?_⟩
  · exact Mem.int_setInt _ _ (by decide)
  · rw [copyResultFrom_setInt q _ _ (by decide)]
    exact hdel

section Answers

variable {s : State (opsHandler g T wild)} {r : Region} {b : ℕ} {q : Request} {m : Mem}

/-- The bytes of an answer are what the server process leaves of the request. -/
theorem served_of_answer
    (hs : Reach step (fun s l => (step s l).AtMost) (State.start (opsHandler g T wild)) s)
    (he : .copied b q m ∈ s.events r ∨ .resp b q m ∈ s.events r) :
    ∃ m₀ iv, .begin b q m₀ ∈ s.events r ∧
      ∀ served, serve g F ⟨q.serializeTo m₀, iv⟩ = some served → served.mem = m := by
  obtain ⟨ph, hi, -⟩ := inv_of_atMost hs
  obtain ⟨m₀, hbegin, hrun⟩ := answer_origin (hi.log r) he
  obtain ⟨iv, hiv⟩ := mem_of_runs hrun
  exact ⟨m₀, iv, hbegin, hiv⟩

/-- The answer of the plaintext pipeline is delivered. -/
theorem delivered_of_answer
    (hs : Reach step (fun s l => (step s l).AtMost) (State.start (opsHandler g T wild)) s)
    (he : .copied b q m ∈ s.events r ∨ .resp b q m ∈ s.events r) {a : Answer}
    (ha : plainCall g F q = some a) :
    m.int Layout.resp = 0 ∧ a.Delivered g (q.copyResultFrom m) := by
  obtain ⟨m₀, iv, -, hiv⟩ := served_of_answer hs he
  obtain ⟨served, hserve, hresp, hdel⟩ := delivered_of_serve ha m₀ iv
  rw [← hiv served hserve]
  exact ⟨hresp, hdel⟩

end Answers

/-- **Concurrent calls are sequential calls.** In a run with no more backends than regions, let a
backend copy the result of a request, or read its return code, from the bytes `m`. Then it began to
serialize the request into some bytes `m₀`, and `m` is what the server process leaves when it serves
the request on them. When the plaintext pipeline answers the request, the return code is 0 and the
result is the answer. -/
theorem calls_sequential (g : Gcm) (F : FloatOps) (T : Target F) (wild : OpsProcess → OpsProcess)
    (s : State (opsHandler g T wild))
    (hs : Reach step (fun s l => (step s l).AtMost) (State.start (opsHandler g T wild)) s)
    (r : Region) (b : ℕ) (q : Request) (m : Mem)
    (he : .copied b q m ∈ s.events r ∨ .resp b q m ∈ s.events r) :
    (∃ m₀ iv, .begin b q m₀ ∈ s.events r ∧
      ∀ served, serve g F ⟨q.serializeTo m₀, iv⟩ = some served → served.mem = m) ∧
    ∀ a, plainCall g F q = some a →
      m.int Layout.resp = 0 ∧ a.Delivered g (q.copyResultFrom m) :=
  ⟨served_of_answer hs he, fun _ ha => delivered_of_answer hs he ha⟩

/-! ## A run with one backend -/

/-- A backend has 7 divided by 2, alone on the system. -/
theorem exists_seven : ∃ (a b : Bytes Num.int.size) (s : State wrappingHandler) (m : Mem),
    Gcm.identity.Decrypts a.bytes (intBytes 7) ∧ Gcm.identity.Decrypts b.bytes (intBytes 2) ∧
    Reach step (fun s l => (step s l).AtMost) (State.start wrappingHandler) s ∧
    .copied 0 (.calcNum .int .div a b) m ∈ s.events firstRegion := by
  obtain ⟨a, b, ha, hb⟩ := exists_operands Gcm.identity 7 2
  have hzero (c : Choice) : Label.Few (.backend 0 c) := firstRegion.isLt
  obtain ⟨s₁, hs₁, hwait, hch, hsent, hin⟩ :=
    exists_waiting Label.Few wrappingHandler (.calcNum .int .div a b) trivial hzero
  have hanswer : SharedMemory.Answers s₁ 1 firstRegion := by
    rw [answers_iff_endsOn hch .poll hsent (hin.reqType ▸ Cmd.code_pos _), endsOn_iff]
    refine (not_congr (serveOn_calc_eq_none_iff hin)).2 ?_
    rw [ha, hb]
    rintro ⟨-, -, hdiv⟩
    exact absurd hdiv (by decide)
  obtain ⟨s, m, hs, hcopied⟩ := reach_copied (hzero .go) trivial hwait hanswer
  exact ⟨a, b, s, m, ha, hb, reach_atMost (fun _ _ => rfl) (hs₁.trans hs), hcopied⟩

theorem calls_sequential_seven : ∃ (a b : Bytes Num.int.size) (s : State wrappingHandler) (m : Mem),
    .copied 0 (.calcNum .int .div a b) m ∈ s.events firstRegion ∧ m.int Layout.resp = 0 ∧
    (Answer.cipher (intBytes 3)).Delivered Gcm.identity
      ((Request.calcNum .int .div a b).copyResultFrom m) := by
  obtain ⟨a, b, s, m, ha, hb, hs, hcopied⟩ := exists_seven
  have hplain : plainCall Gcm.identity FloatOps.null (.calcNum .int .div a b) =
      some (.cipher (intBytes 3)) := by
    have hcalc : plainCalc FloatOps.null .int .div (intBytes 7) (intBytes 2) =
        some (intBytes 3) := by decide
    simp only [plainCall, Gcm.plainOf_eq_some.2 ha, Gcm.plainOf_eq_some.2 hb,
      Option.bind_eq_bind, Option.bind_some, hcalc, Option.map_some]
  exact ⟨a, b, s, m, hcopied,
    (calls_sequential _ _ _ _ s hs firstRegion 0 _ m (.inl hcopied)).2 _ hplain⟩

end Target

end HEDB
