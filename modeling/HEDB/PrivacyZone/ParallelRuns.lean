import HEDB.PrivacyZone.Parallel
import Mathlib.Tactic.DeriveFintype

/-!
# Runs of the parallel build

A branch of `handler` built with `ENABLE_PARA`, under every schedule of its main thread and the
decryption threads. The steps of a thread are those of `decrypt_thread`; reads and writes happen in
the order of the program, as the barriers in the source demand.

Whatever the schedule, the branch ends with what the threads leave in the destinations
(`eq_threaded`), and under a fair schedule it does end (`exists_ended`). A thread leaves what a
decryption without the key leaves, and an operation that returns an error may leave a thread behind.

A thread reports a decryption that fails. If the report does not fit, its destination holds nothing
any more, and an operation that looks at it is undefined.
-/

namespace HEDB.Para

open Layout

/-! ## States and steps -/

/-- Where the main thread is. -/
inductive Pc
  /-- In `decrypt_bytes_para`, with the `k`th operand. -/
  | issuing (k : ℕ)
  | checking
  /-- In `decrypt_wait`, with the code and the plaintexts of the operands that it has decrypted. -/
  | waiting (code : ℤ) (ys : List (List UInt8))
  | ended (out : Option (ℤ × OpsProcess))

/-- The thread that takes the next step. -/
inductive Turn
  | main
  | thread (i : Fin maxDecryptThread)
  deriving DecidableEq, Fintype

instance : Nonempty Turn := ⟨.main⟩

/-- `args_array`. A slot is `fresh` if it is not `inited`; otherwise its `decrypt_status` is `SENT`,
until it is `DONE`. -/
abbrev ArgsArray := Fin maxDecryptThread → Slot (List UInt8) ℕ

/-- The threads of an operation with the local variables that they write to. -/
structure State where
  pc : Pc
  pool : Pool maxDecryptThread (List UInt8) ℕ (Option (List UInt8))

section Steps

variable (x : Mbedtls) (r : OpsProcess) (b : Branch)

/-- `decrypt_bytes` in a decryption thread: what it leaves in the destination. -/
def threadWork (src dst : List UInt8) : Option (List UInt8) :=
  let y := x.decryptBytesIn .zeroed src dst
  if ivSize + tagSize < src.length ∧ y.1 ≠ 0 then
    (Gcm.report src y.2 Gcm.zeroStack Gcm.zeroStack).map fun _ => y.2
  else some y.2

/-- What a thread does to its destination. -/
def work (src : List UInt8) (cell : Option (List UInt8)) : Option (List UInt8) :=
  cell.bind (threadWork x src)

namespace Branch

/-- The contents of the destinations. -/
def operands (cells : ℕ → Option (List UInt8)) : Option (List (List UInt8)) :=
  (List.range b.jobs.length).mapM cells

/-- The operation calls `decrypt_wait` after its own decryptions have returned `code`. -/
def waitsAfter (code : ℤ) : Bool := if code ≠ 0 then b.errorWaits else b.waits

/-- The own decryptions of the operation. If it does not wait then, it has handed over nothing or
does not look at the destinations. -/
def check : Pc :=
  match b.decrypted x.toGcm with
  | none => .ended none
  | some (code, ys) =>
    if b.waitsAfter code then .waiting code ys else .ended (b.finish x.toGcm r [] code ys)

/-- A step of the main thread. `decrypt_bytes_para` and `decrypt_wait` look at the slots again and
again. -/
def mainStep (c : State) : State :=
  match c.pc with
  | .issuing k =>
    match b.jobs[k]? with
    | none => ⟨.checking, c.pool⟩
    | some s =>
      match c.pool.submit s k with
      | none => c
      | some p => ⟨.issuing (k + 1), p⟩
  | .checking => ⟨b.check x r, c.pool⟩
  | .waiting code ys =>
    if c.pool.Idle then
      ⟨.ended ((b.operands c.pool.cells).bind fun xs => b.finish x.toGcm r xs code ys), c.pool⟩
    else c
  | .ended _ => c

def step (c : State) : Turn → State
  | .main => b.mainStep x r c
  | .thread i => ⟨c.pc, c.pool.worker (work x) i⟩

/-- The branch begins. The destinations of earlier operations are not its own. -/
def start (slots : ArgsArray) (cells : ℕ → List UInt8) : State :=
  ⟨.issuing 0, ⟨fun i => (slots i).orphan, fun d => some (cells d)⟩⟩

/-- The states of a run. -/
def run (slots : ArgsArray) (cells : ℕ → List UInt8) (sched : ℕ → Turn) : ℕ → State :=
  trace (b.step x r) (start slots cells) sched

/-- What the threads leave in the destinations. -/
def left (cells : ℕ → List UInt8) : ℕ → Option (List UInt8) :=
  fun d => b.jobs[d]?.elim (some (cells d)) fun s => threadWork x s (cells d)

/-- The operation with what the threads leave. -/
def threaded (cells : ℕ → List UInt8) : Option (ℤ × OpsProcess) :=
  (b.decrypted x.toGcm).bind fun (code, ys) =>
    if b.waitsAfter code then
      (b.operands (b.left x cells)).bind fun xs => b.finish x.toGcm r xs code ys
    else b.finish x.toGcm r [] code ys

end Branch

/-- A decryption thread does not change its destination. -/
def Harmless (src : List UInt8) : Prop :=
  ∀ dst : List UInt8, dst.length = src.length - (ivSize + tagSize) → threadWork x src dst = some dst

/-- No thread is going to change a destination. -/
def Quiet (slots : ArgsArray) : Prop := ∀ i t d, slots i = .sent t d → Harmless x t

end Steps

section Threads

variable {x : Mbedtls} {src dst : List UInt8}

/-- A thread gets through with a source whose report fits. -/
theorem threadWork_of_le (h : src.length ≤ Gcm.reportMax)
    (hdst : dst.length = src.length - (ivSize + tagSize)) :
    threadWork x src dst = some (x.decryptBytesIn .zeroed src dst).2 := by
  have hout : (x.decryptBytesIn .zeroed src dst).2.length ≤ src.length := by
    rw [Mbedtls.length_decryptBytesIn _ hdst, hdst]
    exact Nat.sub_le ..
  unfold threadWork
  dsimp only
  rw [Gcm.report_eq h hout]
  exact ite_self _

/-- A destination that will hold something has not been lost. -/
theorem cells_ne_none {p : Pool maxDecryptThread (List UInt8) ℕ (Option (List UInt8))}
    {v : ℕ → Option (List UInt8)} (h : p.Settles (work x) v) {d : ℕ} (hd : v d ≠ none) :
    p.cells d ≠ none := by
  by_cases hpending : p.Pending d
  · obtain ⟨i, t, hi⟩ := hpending
    rw [h.pending i t d hi] at hd
    intro hnone
    rw [hnone] at hd
    exact hd rfl
  · rwa [← h.settled d hpending]

end Threads

section MainStep

variable {x : Mbedtls} {r : OpsProcess} {b : Branch} {k : ℕ} {s : List UInt8}
  {pool p : Pool maxDecryptThread (List UInt8) ℕ (Option (List UInt8))} {code : ℤ}
  {ys : List (List UInt8)}

theorem mainStep_issued (hs : b.jobs[k]? = none) :
    b.mainStep x r ⟨.issuing k, pool⟩ = ⟨.checking, pool⟩ := by
  simp only [Branch.mainStep, hs]

theorem mainStep_busy (hs : b.jobs[k]? = some s) (h : pool.submit s k = none) :
    b.mainStep x r ⟨.issuing k, pool⟩ = ⟨.issuing k, pool⟩ := by
  simp only [Branch.mainStep, hs, h]

theorem mainStep_submit (hs : b.jobs[k]? = some s) (h : pool.submit s k = some p) :
    b.mainStep x r ⟨.issuing k, pool⟩ = ⟨.issuing (k + 1), p⟩ := by
  simp only [Branch.mainStep, hs, h]

theorem mainStep_idle (h : pool.Idle) : b.mainStep x r ⟨.waiting code ys, pool⟩ =
    ⟨.ended ((b.operands pool.cells).bind fun xs => b.finish x.toGcm r xs code ys), pool⟩ :=
  if_pos h

theorem mainStep_waiting (h : ¬ pool.Idle) :
    b.mainStep x r ⟨.waiting code ys, pool⟩ = ⟨.waiting code ys, pool⟩ := if_neg h

end MainStep

/-! ## What holds in a run -/

section Runs

variable {x : Mbedtls} {r : OpsProcess} {b : Branch} {slots : ArgsArray} {cells : ℕ → List UInt8}

/-- What the destinations will hold when `k` operands have been handed over. -/
def issued (x : Mbedtls) (b : Branch) (cells : ℕ → List UInt8) (k : ℕ) :
    ℕ → Option (List UInt8) :=
  fun d => if d < k then b.left x cells d else some (cells d)

theorem issued_succ {k : ℕ} {s : List UInt8} (hs : b.jobs[k]? = some s) :
    Function.update (issued x b cells k) k (work x s (issued x b cells k k)) =
      issued x b cells (k + 1) := by
  funext d
  by_cases hd : d = k
  · subst hd
    simp [issued, Branch.left, work, hs]
  · have hlt : d < k + 1 ↔ d < k := by omega
    simp [issued, hd, hlt]

theorem issued_of_le {k : ℕ} (hk : b.jobs.length ≤ k) : issued x b cells k = b.left x cells := by
  funext d
  by_cases hd : d < k
  · exact if_pos hd
  · rw [issued, if_neg hd, Branch.left, List.getElem?_eq_none (by omega)]
    rfl

/-- What is known at a point of the main thread. -/
def At (x : Mbedtls) (r : OpsProcess) (b : Branch) (cells : ℕ → List UInt8)
    (pool : Pool maxDecryptThread (List UInt8) ℕ (Option (List UInt8))) : Pc → Prop
  | .issuing k => pool.Settles (work x) (issued x b cells k) ∧ ∀ d, pool.Pending d → d < k
  | .checking => pool.Settles (work x) (b.left x cells)
  | .waiting code ys => pool.Settles (work x) (b.left x cells) ∧
      b.decrypted x.toGcm = some (code, ys) ∧ b.waitsAfter code = true
  | .ended out => pool.Settles (work x) (b.left x cells) ∧ out = b.threaded x r cells ∧
      ∀ code ys, b.decrypted x.toGcm = some (code, ys) → b.waitsAfter code = true → pool.Idle

/-- The invariant of a run: what is known of the main thread, and the tasks are its operands or
harmless. -/
structure Inv (x : Mbedtls) (r : OpsProcess) (b : Branch) (cells : ℕ → List UInt8) (c : State) :
    Prop where
  at_pc : At x r b cells c.pool c.pc
  task : ∀ i t d, c.pool.slots i = .sent t d → Harmless x t ∨ t ∈ b.jobs

theorem inv_start (hslots : Quiet x slots) : Inv x r b cells (Branch.start slots cells) where
  at_pc := by
    have hpending : ∀ d, ¬ (Branch.start slots cells).pool.Pending d :=
      fun d ⟨_, _, h⟩ => Slot.orphan_ne_some h
    refine ⟨?_, fun d hd => absurd hd (hpending d)⟩
    have hcells : issued x b cells 0 = fun d => some (cells d) := by
      funext d
      exact if_neg (Nat.not_lt_zero d)
    rw [hcells]
    exact Pool.settles_of_not_pending hpending
  task i t d hi := by
    have hi : (slots i).orphan = .sent t d := hi
    cases hs : slots i <;> rw [hs] at hi <;> cases hi
    exact .inl (hslots i _ _ hs)

theorem At.worker {pool : Pool maxDecryptThread (List UInt8) ℕ (Option (List UInt8))} {pc : Pc}
    (h : At x r b cells pool pc) (i : Fin maxDecryptThread) :
    At x r b cells (pool.worker (work x) i) pc := by
  cases pc with
  | issuing k => exact ⟨h.1.worker i, fun d hd => h.2 d (Pool.pending_worker hd)⟩
  | checking => exact Pool.Settles.worker h i
  | waiting code ys => exact ⟨h.1.worker i, h.2⟩
  | ended out =>
    refine ⟨h.1.worker i, h.2.1, fun code ys hdec hwait => ?_⟩
    have hidle := h.2.2 code ys hdec hwait
    rwa [Pool.worker_of_isFree _ (hidle i)]

theorem threaded_of_decrypted {code : ℤ} {ys : List (List UInt8)}
    (h : b.decrypted x.toGcm = some (code, ys)) : b.threaded x r cells =
      if b.waitsAfter code then
        (b.operands (b.left x cells)).bind fun xs => b.finish x.toGcm r xs code ys
      else b.finish x.toGcm r [] code ys := by
  rw [Branch.threaded, h]
  rfl

/-- The main thread keeps the invariant. -/
theorem Inv.mainStep {c : State} (h : Inv x r b cells c) : Inv x r b cells (b.mainStep x r c) := by
  obtain ⟨pc, pool⟩ := c
  obtain ⟨hat, htask⟩ := h
  cases pc with
  | issuing k =>
    obtain ⟨hsettles, hpending⟩ := hat
    cases hs : b.jobs[k]? with
    | none =>
      rw [mainStep_issued hs]
      refine ⟨?_, htask⟩
      show pool.Settles _ _
      rwa [← issued_of_le (List.getElem?_eq_none_iff.1 hs)]
    | some s =>
      cases hsub : pool.submit s k with
      | none =>
        rw [mainStep_busy hs hsub]
        exact ⟨⟨hsettles, hpending⟩, htask⟩
      | some p =>
        rw [mainStep_submit hs hsub]
        refine ⟨⟨?_, fun d hd => ?_⟩, fun i t d hi => ?_⟩
        · rw [← issued_succ hs]
          exact hsettles.submit (fun hk => absurd (hpending k hk) (Nat.lt_irrefl k)) hsub
        · rcases Pool.pending_submit hsub hd with rfl | hd
          · exact Nat.lt_succ_self d
          · exact Nat.lt_succ_of_lt (hpending d hd)
        · rcases Pool.submit_slot hsub hi with ⟨rfl, -⟩ | hi
          · exact .inr (List.mem_of_getElem? hs)
          · exact htask i t d hi
  | checking =>
    refine ⟨?_, htask⟩
    show At x r b cells pool (b.check x r)
    unfold Branch.check
    cases hdec : b.decrypted x.toGcm with
    | none =>
      refine ⟨hat, ?_, fun code ys h => by cases hdec.symm.trans h⟩
      rw [Branch.threaded, hdec]
      rfl
    | some res =>
      obtain ⟨code, ys⟩ := res
      dsimp only
      split_ifs with hwait
      · exact ⟨hat, hdec, hwait⟩
      · refine ⟨hat, by rw [threaded_of_decrypted hdec, if_neg hwait], fun code' ys' h' h => ?_⟩
        cases hdec.symm.trans h'
        exact absurd h hwait
  | waiting code ys =>
    obtain ⟨hsettles, hdec, hwait⟩ := hat
    by_cases hidle : pool.Idle
    · rw [mainStep_idle hidle]
      refine ⟨⟨hsettles, ?_, fun _ _ _ _ => hidle⟩, htask⟩
      rw [threaded_of_decrypted hdec, if_pos hwait, hsettles.cells_eq hidle]
    · rw [mainStep_waiting hidle]
      exact ⟨⟨hsettles, hdec, hwait⟩, htask⟩
  | ended out => exact ⟨hat, htask⟩

theorem Inv.step {c : State} (h : Inv x r b cells c) (t : Turn) :
    Inv x r b cells (b.step x r c t) := by
  cases t with
  | main => exact h.mainStep
  | thread i => exact ⟨h.at_pc.worker i, fun j t d hj => h.task j t d (Pool.worker_slot hj)⟩

/-- The invariant holds at all times. -/
theorem inv_run (hslots : Quiet x slots) (sched : ℕ → Turn) (n : ℕ) :
    Inv x r b cells (b.run x r slots cells sched n) :=
  trace_invariant (inv_start hslots) (fun _ t h => h.step t) sched n

/-- **Whatever the schedule, the operation ends with what the threads leave.** -/
theorem eq_threaded (hslots : Quiet x slots) {sched : ℕ → Turn} {n : ℕ}
    {out : Option (ℤ × OpsProcess)} (hend : (b.run x r slots cells sched n).pc = .ended out) :
    out = b.threaded x r cells := by
  have hinv : Inv x r b cells (b.run x r slots cells sched n) := inv_run hslots sched n
  have hat := hinv.at_pc
  rw [hend] at hat
  exact hat.2.1

/-! ## Termination -/

/-- The number of steps that are left, apart from those that change nothing. -/
def rank (b : Branch) (c : State) : ℕ :=
  c.pool.rank + match c.pc with
    | .issuing k => 3 * (b.jobs.length - k) + 3
    | .checking => 2
    | .waiting _ _ => 1
    | .ended _ => 0

theorem rank_mainStep (c : State) : b.mainStep x r c = c ∨
    rank b (b.mainStep x r c) < rank b c := by
  obtain ⟨pc, pool⟩ := c
  cases pc with
  | issuing k =>
    cases hs : b.jobs[k]? with
    | none =>
      rw [mainStep_issued hs]
      exact .inr (by simp only [rank]; omega)
    | some s =>
      cases hsub : pool.submit s k with
      | none => exact .inl (mainStep_busy hs hsub)
      | some p =>
        have hk := (List.getElem?_eq_some_iff.1 hs).1
        have hrank := Pool.rank_submit hsub
        rw [mainStep_submit hs hsub]
        exact .inr (by simp only [rank]; omega)
  | checking =>
    refine .inr ?_
    show rank b ⟨b.check x r, pool⟩ < _
    unfold Branch.check
    split
    · simp only [rank]; omega
    · split_ifs <;> simp only [rank] <;> omega
  | waiting code ys =>
    by_cases hidle : pool.Idle
    · rw [mainStep_idle hidle]
      exact .inr (by simp only [rank]; omega)
    · exact .inl (mainStep_waiting hidle)
  | ended out => exact .inl rfl

theorem rank_step (c : State) (t : Turn) : b.step x r c t = c ∨
    rank b (b.step x r c t) < rank b c := by
  cases t with
  | main => exact rank_mainStep c
  | thread i =>
    cases hfree : (c.pool.slots i).isFree with
    | true =>
      refine .inl ?_
      rw [Branch.step, Pool.worker_of_isFree _ hfree]
    | false => exact .inr (Nat.add_lt_add_right (Pool.rank_worker _ hfree) _)

/-- A thread that is not free can take a step. -/
theorem step_thread_ne {c : State} {i : Fin maxDecryptThread}
    (h : (c.pool.slots i).isFree = false) :
    b.step x r c (.thread i) ≠ c := by
  intro heq
  have hpool : c.pool.worker (work x) i = c.pool := congrArg State.pool heq
  have hlt := Pool.rank_worker (work x) h
  rw [hpool] at hlt
  exact Nat.lt_irrefl _ hlt

/-- Until the branch has ended, the main thread or one that it waits for can take a step. -/
theorem exists_step_ne {c : State} (h : ¬ ∃ out, c.pc = .ended out) : ∃ t, b.step x r c t ≠ c := by
  obtain ⟨pc, pool⟩ := c
  cases pc with
  | issuing k =>
    cases hs : b.jobs[k]? with
    | none => exact ⟨.main, by simp [Branch.step, Branch.mainStep, hs]⟩
    | some s =>
      cases hsub : pool.submit s k with
      | none => exact ⟨.thread ⟨0, by decide⟩, step_thread_ne (Pool.submit_eq_none hsub _)⟩
      | some p => exact ⟨.main, by simp [Branch.step, Branch.mainStep, hs, hsub]⟩
  | checking =>
    refine ⟨.main, fun heq => ?_⟩
    have hpc : b.check x r = .checking := congrArg State.pc heq
    unfold Branch.check at hpc
    split at hpc
    · cases hpc
    · split_ifs at hpc
  | waiting code ys =>
    by_cases hidle : pool.Idle
    · exact ⟨.main, by simp [Branch.step, Branch.mainStep, hidle]⟩
    · obtain ⟨i, hi⟩ := not_forall.1 hidle
      exact ⟨.thread i, step_thread_ne (by simpa using hi)⟩
  | ended out => exact absurd ⟨out, rfl⟩ h

/-- **Under a fair schedule the branch ends.** -/
theorem exists_ended {sched : ℕ → Turn} (hfair : Fair sched) (slots : ArgsArray)
    (cells : ℕ → List UInt8) : ∃ n out, (b.run x r slots cells sched n).pc = .ended out :=
  hfair.ends (P := fun c => ∃ out, c.pc = .ended out) (rank b) rank_step fun _ h => exists_step_ne h

end Runs

end HEDB.Para
