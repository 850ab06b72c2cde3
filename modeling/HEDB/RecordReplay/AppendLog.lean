import HEDB.RecordReplay.Completeness
import Mathlib.Algebra.Order.Floor.Div

/-!
# Spans of the recorder

`get_write_buffer` extends the file by one step of `DATA_LENGTH` bytes when a span does not fit,
also when the span needs more than that. A run of record calls on a new file is an append log
exactly when no span needs a second step, whatever the alignment of the records against the steps.
The spans of a request of the client library are far shorter than a step, so that its runs are
append logs of any length (`appendLog_iff`).
-/

namespace HEDB

open Layout

namespace Recorder

/-! ## The spans of a run -/

/-- A span that `get_write_buffer` has returned: its offset, its length and the length of the
mapping at that moment. -/
structure Span where
  start : ℕ
  length : ℕ
  mapped : ℕ

/-- The span that is returned next. -/
def nextSpan (r : Recorder) (length : ℕ) : Span :=
  ⟨(r.getWriteBuffer length).1, length, (r.getWriteBuffer length).2.fileLength⟩

/-- Spans are reserved and filled, one after the other. -/
def putAll : Recorder → List (ℕ × List (List UInt8)) → Option (Recorder × List Span)
  | r, [] => some (r, [])
  | r, s :: ss => do
    let r' ← r.put s.1 s.2
    let rest ← putAll r' ss
    some (rest.1, r.nextSpan s.1 :: rest.2)

/-- A run of record calls, with its spans. -/
def recordSpans : Recorder → List (Mem × Bytes sizeofUint64) → Option (Recorder × List Span)
  | r, [] => some (r, [])
  | r, m :: ms => do
    let ss ← spans m.1 m.2
    let one ← r.putAll ss
    let rest ← recordSpans one.1 ms
    some (rest.1, one.2 ++ rest.2)

/-- Each span follows the one before, from an offset to another. -/
def Consecutive : ℕ → List Span → ℕ → Prop
  | c, [], e => c = e
  | c, s :: t, e => s.start = c ∧ Consecutive (c + s.length) t e

/-- **The calls append to the log**: the cursor stays inside the mapping, the spans are inside the
mapping and follow each other, and the records are the end of what is written. -/
structure Appended (r : Recorder) (ms : List (Mem × Bytes sizeofUint64)) (r' : Recorder)
    (t : List Span) : Prop where
  recorded : r.recordSpans ms = some (r', t)
  cursor_le : r'.fileCursor ≤ r'.fileLength
  mapped : ∀ s ∈ t, s.start + s.length ≤ s.mapped
  consecutive : Consecutive r.fileCursor t r'.fileCursor
  contents_eq : r'.contents = r.contents ++ ms.flatMap fun m => encoding m.1 m.2

/-- The lengths of the spans of a run. -/
def spanLengths : List (Mem × Bytes sizeofUint64) → Option (List ℕ)
  | [] => some []
  | m :: ms => do
    let ss ← spans m.1 m.2
    let rest ← spanLengths ms
    some (ss.map Prod.fst ++ rest)

/-- The steps of `DATA_LENGTH` bytes that the first `c` bytes of the file take. -/
@[irreducible] def steps (c : ℕ) : ℕ := c ⌈/⌉ dataLength

/-- Spans from offset `c` on, none of which needs more than one further step. -/
def OneStep : ℕ → List ℕ → Prop
  | _, [] => True
  | c, n :: ns => steps (c + n) ≤ steps c + 1 ∧ OneStep (c + n) ns

/-! ## One span -/

variable {r r' : Recorder} {m : Mem} {timestamp : Bytes sizeofUint64}
  {ss : List (ℕ × List (List UInt8))}

/-- What filling a span does to the cursor and to the mapping, when it is defined. -/
theorem put_cases {n : ℕ} {args : List (List UInt8)} (hf : (rrprintf args).length = n)
    (hput : r.put n args = some r') :
    r'.fileCursor = r.fileCursor + n ∧ (r.nextSpan n).start = r.fileCursor ∧
      r'.fileLength = (r.nextSpan n).mapped ∧ r.fileCursor + n ≤ (r.nextSpan n).mapped := by
  rw [put, store, hf] at hput
  split_ifs at hput with hle
  cases hput
  have hcursor : (r.getWriteBuffer n).2.fileCursor = r.fileCursor + n ∧
      (r.getWriteBuffer n).1 = r.fileCursor := by
    simp only [getWriteBuffer]
    split_ifs <;> exact ⟨rfl, rfl⟩
  exact ⟨hcursor.1, hcursor.2, rfl, hcursor.2 ▸ hle⟩

/-- A span is filled exactly when it ends within one step behind the mapping. -/
theorem put_ne_none_iff {n : ℕ} {args : List (List UInt8)} (hf : (rrprintf args).length = n) :
    r.put n args ≠ none ↔ r.fileCursor + n ≤ r.fileLength + dataLength := by
  rw [put, store, hf]
  simp only [getWriteBuffer]
  split_ifs with hlt hle hle
  · exact iff_of_true (Option.some_ne_none _) hle
  · exact iff_of_false (not_not.2 rfl) hle
  · exact iff_of_true (Option.some_ne_none _) (by omega)
  · exact absurd (Nat.le_of_not_lt hlt) hle

/-! ## All spans -/

theorem Consecutive.append {c d e : ℕ} {t t' : List Span} (h : Consecutive c t d)
    (h' : Consecutive d t' e) : Consecutive c (t ++ t') e := by
  induction t generalizing c with
  | nil =>
    obtain rfl : c = d := h
    exact h'
  | cons s t ih => exact ⟨h.1, ih h.2⟩

/-- Spans that are filled one after the other are inside the mapping and follow each other. -/
theorem putAll_of_some (hex : Exact ss) (h : r.Inv) {t : List Span}
    (hput : r.putAll ss = some (r', t)) :
    r'.Inv ∧ r'.contents = r.contents ++ (ss.flatMap fun s => rrprintf s.2) ∧
      (∀ s ∈ t, s.start + s.length ≤ s.mapped) ∧ Consecutive r.fileCursor t r'.fileCursor := by
  induction ss generalizing r t with
  | nil =>
    cases hput
    exact ⟨h, (List.append_nil _).symm, nofun, rfl⟩
  | cons s ss ih =>
    rw [putAll] at hput
    obtain ⟨r₁, hr₁, hput⟩ := Option.bind_eq_some_iff.1 hput
    obtain ⟨⟨r₂, t₂⟩, hrest, hput⟩ := Option.bind_eq_some_iff.1 hput
    cases hput
    have hs := hex s List.mem_cons_self
    obtain ⟨hinv, hcontents⟩ := put_of_some h hs hr₁
    obtain ⟨hcursor, hstart, -, hmapped⟩ := put_cases hs hr₁
    obtain ⟨hinv', hcontents', hall, hcons⟩ :=
      ih (fun s hs => hex s (List.mem_cons_of_mem _ hs)) hinv hrest
    refine ⟨hinv', ?_, List.forall_mem_cons.2 ⟨?_, hall⟩, hstart, ?_⟩
    · rw [hcontents', hcontents, List.flatMap_cons, List.append_assoc]
    · rw [hstart]
      exact hmapped
    · rw [hcursor] at hcons
      exact hcons

theorem steps_le_iff {c k : ℕ} : steps c ≤ k ↔ c ≤ dataLength * k := by
  rw [steps]
  exact ceilDiv_le_iff_le_mul (by simp [dataLength])

theorem steps_mono {c d : ℕ} (h : c ≤ d) : steps c ≤ steps d :=
  steps_le_iff.2 (h.trans (steps_le_iff.1 le_rfl))

/-- The mapping has the steps that the written part takes. -/
structure Aligned (r : Recorder) : Prop extends r.Inv where
  length_eq : r.fileLength = dataLength * steps r.fileCursor

theorem aligned_updateWriteFd (file : List UInt8) : (updateWriteFd file).Aligned := by
  refine ⟨inv_updateWriteFd file, ?_⟩
  simp only [updateWriteFd, steps, zero_ceilDiv, Nat.mul_zero]

/-- **A span is filled exactly when it needs one further step at most**, and the mapping then has
the steps that are needed. -/
theorem Aligned.put_ne_none_iff (h : r.Aligned) {n : ℕ} {args : List (List UInt8)}
    (hf : (rrprintf args).length = n) :
    r.put n args ≠ none ↔ steps (r.fileCursor + n) ≤ steps r.fileCursor + 1 := by
  rw [Recorder.put_ne_none_iff hf, h.length_eq, steps_le_iff, Nat.mul_succ]

theorem Aligned.put_of_some (h : r.Aligned) {n : ℕ} {args : List (List UInt8)}
    (hf : (rrprintf args).length = n) (hput : r.put n args = some r') : r'.Aligned := by
  obtain ⟨hcursor, -, hlength, hle⟩ := put_cases hf hput
  refine ⟨(Recorder.put_of_some h.toInv hf hput).1, ?_⟩
  rw [hcursor, hlength]
  have hmapped : (r.nextSpan n).mapped =
      if r.fileLength < r.fileCursor + n then r.fileLength + dataLength else r.fileLength := by
    simp only [nextSpan, getWriteBuffer]
    split_ifs <;> rfl
  rw [hmapped, h.length_eq] at hle ⊢
  split_ifs at hle ⊢ with hlt
  · rw [← Nat.mul_succ] at hle ⊢
    have hsteps : steps (r.fileCursor + n) = steps r.fileCursor + 1 :=
      le_antisymm (steps_le_iff.2 hle) (Nat.lt_of_not_le fun h' => hlt.not_ge (steps_le_iff.1 h'))
    rw [hsteps]
  · rw [le_antisymm (steps_le_iff.2 hle) (steps_mono (Nat.le_add_right _ _))]

theorem oneStep_append {c : ℕ} {ns ns' : List ℕ} :
    OneStep c (ns ++ ns') ↔ OneStep c ns ∧ OneStep (c + ns.sum) ns' := by
  induction ns generalizing c with
  | nil => simp [OneStep]
  | cons n ns ih =>
    rw [List.cons_append, OneStep, OneStep, ih, and_assoc, List.sum_cons, Nat.add_assoc]

/-- Spans of one step at most need one further step at most, from any offset. -/
theorem oneStep_of_le {c : ℕ} {ns : List ℕ} (h : ∀ n ∈ ns, n ≤ dataLength) : OneStep c ns := by
  induction ns generalizing c with
  | nil => trivial
  | cons n ns ih =>
    refine ⟨steps_le_iff.2 ?_, ih fun n hn => h n (List.mem_cons_of_mem _ hn)⟩
    have hn := h n List.mem_cons_self
    have hc : c ≤ dataLength * steps c := steps_le_iff.1 le_rfl
    rw [Nat.mul_succ]
    omega

/-- The spans of a record are filled exactly when none needs a second step. -/
theorem putAll_ne_none_iff (hex : Exact ss) (h : r.Aligned) :
    r.putAll ss ≠ none ↔ OneStep r.fileCursor (ss.map Prod.fst) := by
  induction ss generalizing r with
  | nil => exact iff_of_true (Option.some_ne_none _) trivial
  | cons s ss ih =>
    have hs := hex s List.mem_cons_self
    have hput := h.put_ne_none_iff hs
    rw [List.map_cons, OneStep, ← hput, putAll]
    cases hr₁ : r.put s.1 s.2 with
    | none => simp
    | some r₁ =>
      have ih := ih (fun s hs => hex s (List.mem_cons_of_mem _ hs)) (h.put_of_some hs hr₁)
      rw [(put_cases hs hr₁).1] at ih
      rw [← ih]
      cases hrest : r₁.putAll ss <;> simp [hrest]

theorem putAll_aligned (hex : Exact ss) (h : r.Aligned) {t : List Span}
    (hput : r.putAll ss = some (r', t)) :
    r'.Aligned ∧ r'.fileCursor = r.fileCursor + (ss.map Prod.fst).sum := by
  induction ss generalizing r t with
  | nil =>
    cases hput
    exact ⟨h, rfl⟩
  | cons s ss ih =>
    rw [putAll] at hput
    obtain ⟨r₁, hr₁, hput⟩ := Option.bind_eq_some_iff.1 hput
    obtain ⟨⟨r₂, t₂⟩, hrest, hput⟩ := Option.bind_eq_some_iff.1 hput
    cases hput
    have hs := hex s List.mem_cons_self
    obtain ⟨hal, hcursor⟩ :=
      ih (fun s hs => hex s (List.mem_cons_of_mem _ hs)) (h.put_of_some hs hr₁) hrest
    rw [hcursor, (put_cases hs hr₁).1, List.map_cons, List.sum_cons, Nat.add_assoc]
    exact ⟨hal, rfl⟩

/-! ## Runs -/

/-- One record call, with its spans. -/
theorem recordSpans_cons_eq {ms : List (Mem × Bytes sizeofUint64)}
    (hss : spans m timestamp = some ss) : r.recordSpans ((m, timestamp) :: ms) =
      (r.putAll ss).bind fun one => (one.1.recordSpans ms).bind fun rest =>
        some (rest.1, one.2 ++ rest.2) := by
  rw [recordSpans, hss]
  rfl

/-- **A run of record calls, when it is defined, appends to the log.** -/
theorem appended_of_some {ms : List (Mem × Bytes sizeofUint64)} (h : r.Inv) {t : List Span}
    (hrec : r.recordSpans ms = some (r', t)) : Appended r ms r' t := by
  induction ms generalizing r t with
  | nil =>
    cases hrec
    refine ⟨rfl, h.cursor_le, nofun, rfl, ?_⟩
    rw [List.flatMap_nil, List.append_nil]
  | cons m ms ih =>
    have hrec' := hrec
    rw [recordSpans] at hrec'
    obtain ⟨ss, hss, hrec'⟩ := Option.bind_eq_some_iff.1 hrec'
    obtain ⟨⟨r₁, t₁⟩, hput, hrec'⟩ := Option.bind_eq_some_iff.1 hrec'
    obtain ⟨⟨r₂, t₂⟩, hrest, hrec'⟩ := Option.bind_eq_some_iff.1 hrec'
    cases hrec'
    obtain ⟨hinv, hcontents, hmapped, hcons⟩ := putAll_of_some (spans_exact hss) h hput
    have hrest := ih hinv hrest
    refine ⟨hrec, hrest.cursor_le, ?_, hcons.append hrest.consecutive, ?_⟩
    · exact List.forall_mem_append.2 ⟨hmapped, hrest.mapped⟩
    · rw [hrest.contents_eq, hcontents, List.flatMap_cons, List.append_assoc, encoding, hss,
        Option.getD_some]

/-- A run of record calls is defined exactly when no span needs a second step. -/
theorem recordSpans_ne_none_iff {ms : List (Mem × Bytes sizeofUint64)} (h : r.Aligned) :
    r.recordSpans ms ≠ none ↔ ∃ ns, spanLengths ms = some ns ∧ OneStep r.fileCursor ns := by
  induction ms generalizing r with
  | nil => exact iff_of_true (Option.some_ne_none _) ⟨[], rfl, trivial⟩
  | cons m ms ih =>
    cases hss : spans m.1 m.2 with
    | none => simp [recordSpans, spanLengths, hss]
    | some ss =>
      have hex := spans_exact hss
      have hlengths : ∀ ns, spanLengths (m :: ms) = some ns ↔
          ∃ rest, spanLengths ms = some rest ∧ ss.map Prod.fst ++ rest = ns := by
        intro ns
        simp [spanLengths, hss, Option.bind_eq_some_iff]
      have hone := putAll_ne_none_iff hex h
      rw [recordSpans_cons_eq hss]
      cases hput : r.putAll ss with
      | none =>
        rw [hput] at hone
        refine iff_of_false (not_not.2 rfl) ?_
        rintro ⟨ns, hns, hstep⟩
        obtain ⟨rest, -, rfl⟩ := (hlengths ns).1 hns
        exact hone.2 (oneStep_append.1 hstep).1 rfl
      | some one =>
        obtain ⟨hal, hcursor⟩ := putAll_aligned hex h hput
        rw [hput] at hone
        have ih := ih hal
        rw [hcursor] at ih
        constructor
        · intro hne
          obtain ⟨rest, hrest, hstep⟩ := ih.1 fun hnone => hne (by simp [hnone])
          exact ⟨_, (hlengths _).2 ⟨rest, hrest, rfl⟩,
            oneStep_append.2 ⟨hone.1 (Option.some_ne_none _), hstep⟩⟩
        · rintro ⟨ns, hns, hstep⟩
          obtain ⟨rest, hrest, rfl⟩ := (hlengths ns).1 hns
          obtain ⟨x, hx⟩ := Option.ne_none_iff_exists'.1
            (ih.2 ⟨rest, hrest, (oneStep_append.1 hstep).2⟩)
          simp [hx]

/-- The spans of the requests of the client library are no longer than a step. -/
theorem exists_spanLengths (ks : List Completed) (hks : ∀ k ∈ ks, k.req.ResultFits k.buf) :
    ∃ ns, spanLengths (ks.map fun k => (k.buf, k.timestamp)) = some ns ∧
      ∀ n ∈ ns, n ≤ dataLength := by
  induction ks with
  | nil => exact ⟨[], rfl, nofun⟩
  | cons k ks ih =>
    obtain ⟨ns, hns, hle⟩ := ih fun k hk => hks k (List.mem_cons_of_mem _ hk)
    have hone : ∃ ss, spans k.buf k.timestamp = some ss ∧ ∀ s ∈ ss, s.1 ≤ dataLength := by
      by_cases hk : k.req.Logged
      · exact spans_of_fits k.holds hk (hks k List.mem_cons_self)
      · exact ⟨[], spans_of_not_logged k.holds hk _, nofun⟩
    obtain ⟨ss, hss, hshort⟩ := hone
    refine ⟨ss.map Prod.fst ++ ns, ?_, List.forall_mem_append.2 ⟨?_, hle⟩⟩
    · rw [List.map_cons, spanLengths, hss, hns]
      rfl
    · simpa using hshort

/-- **The recorder is an append log exactly when no span needs a second step**, in every run of
record calls on a new file. No run of requests of the client library has such a span. -/
theorem appendLog_iff :
    (∀ ms : List (Mem × Bytes sizeofUint64), (∃ r t, Appended (updateWriteFd []) ms r t) ↔
      ∃ ns, spanLengths ms = some ns ∧ OneStep 0 ns) ∧
    ∀ ks : List Completed, (∀ k ∈ ks, k.req.ResultFits k.buf) →
      ∃ r t, Appended (updateWriteFd []) (ks.map fun k => (k.buf, k.timestamp)) r t := by
  have hiff (ms : List (Mem × Bytes sizeofUint64)) :
      (∃ r t, Appended (updateWriteFd []) ms r t) ↔
        ∃ ns, spanLengths ms = some ns ∧ OneStep 0 ns := by
    have hnew : (updateWriteFd []).recordSpans ms ≠ none ↔ _ :=
      recordSpans_ne_none_iff (aligned_updateWriteFd [])
    rw [Option.ne_none_iff_exists'] at hnew
    refine Iff.trans ⟨?_, ?_⟩ hnew
    · rintro ⟨r, t, h⟩
      exact ⟨_, h.recorded⟩
    · rintro ⟨⟨r, t⟩, h⟩
      exact ⟨r, t, appended_of_some (inv_updateWriteFd []) h⟩
  refine ⟨hiff, fun ks hks => (hiff _).2 ?_⟩
  obtain ⟨ns, hns, hle⟩ := exists_spanLengths ks hks
  exact ⟨ns, hns, oneStep_of_le hle⟩

theorem appendLog_sampleRun : (∀ k ∈ Replayer.sampleRun, k.req.ResultFits k.buf) ∧
    ∃ r t, Appended (updateWriteFd [])
      (Replayer.sampleRun.map fun k => (k.buf, k.timestamp)) r t := by
  have hks : ∀ k ∈ Replayer.sampleRun, k.req.ResultFits k.buf := by
    simp [Replayer.sampleRun, Replayer.samplePlus, Replayer.sampleCmp, Request.ResultFits]
  exact ⟨hks, appendLog_iff.2 _ hks⟩

end Recorder

end HEDB
