import Mathlib.Tactic

/-!
# Worker pools

A main thread hands tasks to the workers of a pool. Each worker has a slot; a task is put into the
first slot that is free, and its worker later carries it out on a destination and marks the slot as
done.

What a pool will have computed once all its workers are done is fixed when the tasks are handed
over: `Settles p v` says that the cells will be `v`. The steps of the workers do not change it, in
whatever order they come (`Settles.worker`), and handing over a task has the effect of carrying it
out at once (`Settles.submit`), as long as no two tasks that wait have the same destination. So a
pool that is idle holds what a sequential execution computes (`Settles.cells_eq`).
-/

namespace HEDB

variable {β ι α : Type*} {N : ℕ}

/-- The slot of a worker. -/
inductive Slot (β ι : Type*)
  /-- The worker has not been started. -/
  | fresh
  /-- A task waits or is carried out. Its destination is a cell, or memory that is not looked at. -/
  | sent (task : β) (dst : Option ι)
  /-- The task has been carried out but the slot is not marked yet. -/
  | written
  | done

namespace Slot

/-- A task can be put into the slot. -/
def isFree : Slot β ι → Bool
  | fresh | done => true
  | sent _ _ | written => false

/-- The number of steps that the worker has left. -/
def rank : Slot β ι → ℕ
  | sent _ _ => 2
  | written => 1
  | fresh | done => 0

/-- The slot, with a destination that is not looked at. -/
def orphan : Slot β ι → Slot β ι
  | sent t _ => sent t none
  | s => s

theorem rank_eq_zero {s : Slot β ι} : s.rank = 0 ↔ s.isFree = true := by
  cases s <;> simp [rank, isFree]

theorem orphan_ne_some {s : Slot β ι} {t : β} {d : ι} : s.orphan ≠ sent t (some d) := by
  cases s <;> simp [orphan]

end Slot

/-- The slots of the workers and the cells that they write to. -/
structure Pool (N : ℕ) (β ι α : Type*) where
  slots : Fin N → Slot β ι
  cells : ι → α

namespace Pool

/-- No worker has anything to do. -/
def Idle (p : Pool N β ι α) : Prop := ∀ i, (p.slots i).isFree = true

instance (p : Pool N β ι α) : Decidable p.Idle := inferInstanceAs (Decidable (∀ _, _ = _))

/-- A task for the cell waits. -/
def Pending (p : Pool N β ι α) (d : ι) : Prop := ∃ i t, p.slots i = .sent t (some d)

/-- Put a task into the first free slot. -/
def submit (p : Pool N β ι α) (t : β) (d : ι) : Option (Pool N β ι α) :=
  ((List.finRange N).find? fun i => (p.slots i).isFree).map fun i =>
    ⟨Function.update p.slots i (.sent t (some d)), p.cells⟩

/-- The number of steps that the workers have left. -/
def rank (p : Pool N β ι α) : ℕ := ∑ i, (p.slots i).rank

section Workers

variable [DecidableEq ι] (work : β → α → α)

/-- A step of a worker. -/
def worker (p : Pool N β ι α) (i : Fin N) : Pool N β ι α :=
  match p.slots i with
  | .sent t d => ⟨Function.update p.slots i .written,
      d.elim p.cells fun d => Function.update p.cells d (work t (p.cells d))⟩
  | .written => ⟨Function.update p.slots i .done, p.cells⟩
  | .fresh | .done => p

/-- The cells will be `v` when the workers are done. -/
structure Settles (p : Pool N β ι α) (v : ι → α) : Prop where
  pending : ∀ i t d, p.slots i = .sent t (some d) → v d = work t (p.cells d)
  settled : ∀ d, ¬ p.Pending d → v d = p.cells d
  distinct : ∀ i j t t' d, p.slots i = .sent t (some d) → p.slots j = .sent t' (some d) → i = j

end Workers

/-! ## Handing over -/

section Submit

variable {p p' : Pool N β ι α} {t : β} {d : ι}

theorem rank_update {i : Fin N} {s : Slot β ι} (h : p'.slots = Function.update p.slots i s) :
    p'.rank + (p.slots i).rank = p.rank + s.rank := by
  have hrest : ∑ j ∈ Finset.univ.erase i, (p'.slots j).rank =
      ∑ j ∈ Finset.univ.erase i, (p.slots j).rank :=
    Finset.sum_congr rfl fun j hj => by rw [h, Function.update_of_ne (Finset.ne_of_mem_erase hj)]
  have hnew := Finset.add_sum_erase Finset.univ (fun j => (p'.slots j).rank) (Finset.mem_univ i)
  have hold := Finset.add_sum_erase Finset.univ (fun j => (p.slots j).rank) (Finset.mem_univ i)
  have hself : (p'.slots i).rank = s.rank := by rw [h, Function.update_self]
  simp only [rank]
  omega

/-- What handing over a task does. -/
theorem submit_eq_some (h : p.submit t d = some p') : ∃ i, (p.slots i).isFree = true ∧
    p'.slots = Function.update p.slots i (.sent t (some d)) ∧ p'.cells = p.cells := by
  obtain ⟨i, hi, rfl⟩ := Option.map_eq_some_iff.1 h
  exact ⟨i, by simpa using List.find?_some hi, rfl, rfl⟩

/-- A task is not handed over only if all workers are busy. -/
theorem submit_eq_none (h : p.submit t d = none) (i : Fin N) : (p.slots i).isFree = false := by
  have hfind := List.find?_eq_none.1 (Option.map_eq_none_iff.1 h) i (List.mem_finRange i)
  simpa using hfind

theorem rank_submit (h : p.submit t d = some p') : p'.rank = p.rank + 2 := by
  obtain ⟨i, hi, hslots, -⟩ := submit_eq_some h
  have hrank := rank_update hslots
  rwa [Slot.rank_eq_zero.2 hi] at hrank

/-- The tasks of the pool are those that it had and the new one. -/
theorem submit_slot (h : p.submit t d = some p') {j : Fin N} {t' : β} {d' : Option ι}
    (hj : p'.slots j = .sent t' d') : t' = t ∧ d' = some d ∨ p.slots j = .sent t' d' := by
  obtain ⟨i, -, hslots, -⟩ := submit_eq_some h
  rw [hslots] at hj
  by_cases hij : j = i
  · rw [hij, Function.update_self, Slot.sent.injEq] at hj
    exact .inl ⟨hj.1.symm, hj.2.symm⟩
  · rw [Function.update_of_ne hij] at hj
    exact .inr hj

theorem pending_submit (h : p.submit t d = some p') {d' : ι} (hd' : p'.Pending d') :
    d' = d ∨ p.Pending d' := by
  obtain ⟨j, t', hj⟩ := hd'
  rcases submit_slot h hj with ⟨-, hdd⟩ | hj
  · exact .inl (Option.some.inj hdd)
  · exact .inr ⟨j, t', hj⟩

/-- **Handing over a task settles that it will be carried out.** -/
theorem Settles.submit [DecidableEq ι] {work : β → α → α} {v : ι → α} (hv : p.Settles work v)
    (hd : ¬ p.Pending d) (h : p.submit t d = some p') :
    p'.Settles work (Function.update v d (work t (v d))) := by
  obtain ⟨i, hi, hslots, hcells⟩ := submit_eq_some h
  have hself : p'.slots i = .sent t (some d) := by rw [hslots, Function.update_self]
  have hother : ∀ j, j ≠ i → p'.slots j = p.slots j := by
    intro j hj
    rw [hslots, Function.update_of_ne hj]
  have hwait : ∀ j t' d', p.slots j = .sent t' (some d') → d' ≠ d := by
    rintro j t' d' hj rfl
    exact hd ⟨j, t', hj⟩
  refine ⟨fun j t' d' hj => ?_, fun d' hd' => ?_, fun j j' t₁ t₂ d' hj hj' => ?_⟩
  · rw [hcells]
    rcases submit_slot h hj with ⟨rfl, hdd⟩ | hj
    · cases hdd
      rw [Function.update_self, hv.settled _ hd]
    · rw [Function.update_of_ne (hwait j t' d' hj), hv.pending j t' d' hj]
  · have hne : d' ≠ d := by
      rintro rfl
      exact hd' ⟨i, t, hself⟩
    rw [Function.update_of_ne hne, hcells]
    refine hv.settled d' fun ⟨j, t', hj⟩ => hd' ⟨j, t', ?_⟩
    rw [hother j, hj]
    rintro rfl
    rw [hj] at hi
    cases hi
  · -- A task for `d` is the new one: no other task for it waits.
    by_cases hji : j = i <;> by_cases hji' : j' = i
    · rw [hji, hji']
    · rw [hji, hself] at hj
      cases hj
      exact absurd rfl (hwait j' t₂ _ (hother j' hji' ▸ hj'))
    · rw [hji', hself] at hj'
      cases hj'
      exact absurd rfl (hwait j t₁ _ (hother j hji ▸ hj))
    · exact hv.distinct j j' t₁ t₂ d' (hother j hji ▸ hj) (hother j' hji' ▸ hj')

end Submit

/-! ## Carrying out -/

section Settled

variable {work : β → α → α} {p : Pool N β ι α} {v : ι → α}

/-- When the workers are done the cells hold what has been settled. -/
theorem Settles.cells_eq (hv : p.Settles work v) (h : p.Idle) : p.cells = v := by
  funext d
  refine (hv.settled d fun ⟨i, t, hi⟩ => ?_).symm
  have hfree := h i
  rw [hi] at hfree
  cases hfree

/-- Without tasks for the cells, they stay as they are. -/
theorem settles_of_not_pending (h : ∀ d, ¬ p.Pending d) : p.Settles work p.cells where
  pending i t d hi := absurd ⟨i, t, hi⟩ (h d)
  settled _ _ := rfl
  distinct i _ t _ d hi := absurd ⟨i, t, hi⟩ (h d)

end Settled

section Workers

variable [DecidableEq ι] (work : β → α → α) {p : Pool N β ι α} {v : ι → α} {i : Fin N}

/-- A worker without a task does nothing. -/
theorem worker_of_isFree (h : (p.slots i).isFree = true) : p.worker work i = p := by
  unfold worker
  split <;> simp_all [Slot.isFree]

/-- What a step of a worker does to the slots. -/
theorem worker_slots (h : (p.slots i).isFree = false) : ∃ s : Slot β ι,
    (p.worker work i).slots = Function.update p.slots i s ∧ s.rank < (p.slots i).rank ∧
      ∀ t d, s ≠ .sent t d := by
  unfold worker
  split
  case h_1 hi => exact ⟨.written, rfl, by simp [hi, Slot.rank], by simp⟩
  case h_2 hi => exact ⟨.done, rfl, by simp [hi, Slot.rank], by simp⟩
  all_goals simp_all [Slot.isFree]

/-- A worker that has something to do gets closer to the end of it. -/
theorem rank_worker (h : (p.slots i).isFree = false) : (p.worker work i).rank < p.rank := by
  obtain ⟨s, hslots, hlt, -⟩ := worker_slots work h
  have hrank := rank_update hslots
  omega

variable {work}

/-- The workers give themselves no tasks. -/
theorem worker_slot {j : Fin N} {t : β} {d : Option ι} (h : (p.worker work i).slots j = .sent t d) :
    p.slots j = .sent t d := by
  cases hfree : (p.slots i).isFree with
  | true => rwa [worker_of_isFree work hfree] at h
  | false =>
    obtain ⟨s, hslots, -, hs⟩ := worker_slots work hfree
    rw [hslots] at h
    by_cases hij : j = i
    · rw [hij, Function.update_self] at h
      exact absurd h (hs t d)
    · rwa [Function.update_of_ne hij] at h

theorem pending_worker {d : ι} (h : (p.worker work i).Pending d) : p.Pending d := by
  obtain ⟨j, t, hj⟩ := h
  exact ⟨j, t, worker_slot hj⟩

/-- A task that waits still does after the step of another worker. -/
theorem worker_slot_of_ne {j : Fin N} (h : j ≠ i) : (p.worker work i).slots j = p.slots j := by
  cases hfree : (p.slots i).isFree with
  | true => rw [worker_of_isFree work hfree]
  | false =>
    obtain ⟨s, hslots, -, -⟩ := worker_slots work hfree
    rw [hslots, Function.update_of_ne h]

/-- **The steps of the workers change nothing about what they will have done.** -/
theorem Settles.worker (hv : p.Settles work v) (i : Fin N) : (p.worker work i).Settles work v := by
  have hdistinct : ∀ j j' t t' d, (p.worker work i).slots j = .sent t (some d) →
      (p.worker work i).slots j' = .sent t' (some d) → j = j' := fun j j' t t' d hj hj' =>
    hv.distinct j j' t t' d (worker_slot hj) (worker_slot hj')
  by_cases hi : ∃ t d, p.slots i = .sent t (some d)
  · -- The cell of the task gets its settled value; the other cells and their tasks stay.
    obtain ⟨t, d, hi⟩ := hi
    have hcells : (p.worker work i).cells = Function.update p.cells d (v d) := by
      rw [hv.pending i t d hi, Pool.worker, hi]
      rfl
    have hslot : (p.worker work i).slots i = .written := by
      rw [Pool.worker, hi]
      exact Function.update_self ..
    refine ⟨fun j t' d' hj => ?_, fun d' hd' => ?_, hdistinct⟩
    · have hne : d' ≠ d := by
        rintro rfl
        obtain rfl := hv.distinct j i t' t d' (worker_slot hj) hi
        rw [hslot] at hj
        cases hj
      rw [hcells, Function.update_of_ne hne, hv.pending j t' d' (worker_slot hj)]
    · rw [hcells]
      by_cases hdd : d' = d
      · rw [hdd, Function.update_self]
      · rw [Function.update_of_ne hdd]
        refine hv.settled d' fun ⟨j, t', hj⟩ => hd' ⟨j, t', ?_⟩
        rw [worker_slot_of_ne, hj]
        rintro rfl
        rw [hi] at hj
        cases hj
        exact hdd rfl
  · have hcells : (p.worker work i).cells = p.cells := by
      unfold Pool.worker
      split
      case h_1 t d h =>
        cases d with
        | none => rfl
        | some d => exact absurd ⟨t, d, h⟩ hi
      all_goals rfl
    refine ⟨fun j t d hj => ?_, fun d hd => ?_, hdistinct⟩
    · rw [hcells, hv.pending j t d (worker_slot hj)]
    · rw [hcells]
      refine hv.settled d fun ⟨j, t, hj⟩ => hd ⟨j, t, ?_⟩
      rw [worker_slot_of_ne, hj]
      rintro rfl
      exact hi ⟨t, d, hj⟩

end Workers

end Pool

end HEDB
