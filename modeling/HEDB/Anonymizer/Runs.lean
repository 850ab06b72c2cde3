import HEDB.Anonymizer.Seeds
import HEDB.RecordReplay.LogEnd

/-!
# Runs of the anonymizer

The loop of `thread_entry` over a whole log. Each round reads a record, numbers it and writes its
ktest file; a round that reads no record ends the loop. The log of a run in a new file has zeros
behind its records, or ends with the last one. So there is one file for each record, in the order of
the log and numbered by the position in it (`threadEntry_log`). The branch that is to skip
operations on floats asks for opcodes that there are not: those records are turned into files of
integer operations, unless a number has no `int` value.
-/

namespace HEDB

/-! ## The end of a new log -/

namespace Recorder

/-- Behind the records of a new file there are only zeros. -/
theorem drop_resized_nil (n : ℕ) : (resized [] n).drop n =
    List.replicate (dataLength * ((n + dataLength - 1) / dataLength) - n) 0 := by
  rcases Nat.eq_zero_or_pos n with rfl | hn
  · rfl
  · rw [resized, if_neg hn.ne', ← List.replicate_zero, ftruncate_replicate, ftruncate_replicate,
      List.drop_replicate]

end Recorder

/-- **A new log holds the records of the run and zeros.** -/
theorem file_of_newLog {ks : List Completed} {R : Recorder} (h : recordRun [] ks = some R) :
    R.file = ks.flatMap Completed.encoding ++
      List.replicate (dataLength * (((ks.flatMap Completed.encoding).length + dataLength - 1) /
        dataLength) - (ks.flatMap Completed.encoding).length) 0 := by
  have hfile := Recorder.file_of_recordAll h
  rw [List.flatMap_map, Recorder.drop_resized_nil] at hfile
  exact hfile

namespace Desenitizer

/-- At the end of the file the reader returns -1. -/
theorem retrieve_of_end {c : Cursor} (frame m : Mem) (hc : c.rest = []) :
    (retrieve frame c m).1 = .returned (-1) := by
  simp [retrieve, hc]

/-- A zero in the place of an opcode ends the reading. -/
theorem retrieve_of_zero {c : Cursor} {tl : List UInt8} (frame m : Mem)
    (hc : c.rest = intBytes 0 ++ tl) : (retrieve frame c m).1 = .returned (-2) := by
  have hop := Replayer.fread_int_of_rest frame 0 hc (length_intBytes _)
  have hbytes : ¬ (c.rest.take 4).length < 1 := by
    rw [hc, List.length_take, List.length_append, length_intBytes]
    omega
  simp only [retrieve, hop, if_neg hbytes, bytesInt_intBytes (show IsInt 0 by decide), if_true]

end Desenitizer

namespace Anonymizer

open Layout KTest

/-! ## The loop -/

section Loop

variable (x : Mbedtls) (F : FloatOps) (frames : ℕ → Mem) (locals : ℕ → Locals)

/-- The loop of `thread_entry`, of which `fuel` rounds are observed. Each round has its own contents
of the stack, and the buffer of the request stays. -/
def threadEntry : ℕ → ℕ → Cursor → Mem → List Round
  | 0, _, _, _ => []
  | fuel + 1, recnum, c, m =>
    let round := threadRound x F m (locals recnum) recnum (frames recnum) c
    let (_, c, m) := Desenitizer.retrieve (frames recnum) c m
    match round with
    | .wrote .. | .skipped => round :: threadEntry fuel (recnum + 1) c m
    | .stopped | .undefined => [round]

/-- The name of the file for a record. -/
def ktestName (recnum : ℕ) : String := "ktests/" ++ toString recnum ++ "-gen.ktest"

/-- The files for the records of a log, from number `recnum` on: one for each, until the
generation of one is undefined or the records are over. -/
def seedsOf : ℕ → List Completed → List Round
  | _, [] => [.stopped]
  | recnum, k :: ks =>
    match genKtestFile x F .zeroed k.buf (locals recnum) with
    | some objects =>
      .wrote (ktestName recnum) (toFile objects) :: seedsOf (recnum + 1) ks
    | none => [.undefined]

end Loop

variable {x : Mbedtls} {F : FloatOps} {frames : ℕ → Mem} {locals : ℕ → Locals} {c : Cursor}
  {m : Mem} {k : Completed} {tl : List UInt8}

section Rounds

variable {ctx : Context} {l : Locals} {m' : Mem} {q : Request}

/-- A round that meets the end of the log stops. -/
theorem threadRound_stopped {recnum : ℕ} {frame : Mem} {v : ℤ} (hv : v < 0)
    (h : (Desenitizer.retrieve frame c m).1 = .returned v) :
    threadRound x F m l recnum frame c = .stopped := by
  rcases hr : Desenitizer.retrieve frame c m with ⟨ret, c', m'⟩
  rw [hr] at h
  cases h
  rw [threadRound, hr]
  exact if_pos hv

end Rounds

/-! ## Whole logs -/

/-- **The loop over a log** whose end the reader notices. -/
theorem threadEntry_eq_seedsOf {ks : List Completed}
    (hks : ∀ k ∈ ks, k.req.Logged ∧ k.req.ResultFits k.buf)
    (hend : ∀ (frame : Mem) (c : Cursor) (m : Mem), c.rest = tl →
      ∃ v < 0, (Desenitizer.retrieve frame c m).1 = .returned v) {fuel recnum : ℕ}
    (hfuel : ks.length < fuel) (hc : c.rest = ks.flatMap Completed.encoding ++ tl) :
    threadEntry x F frames locals fuel recnum c m = seedsOf x F locals recnum ks := by
  -- The invariant is that the records that are left stand at the cursor.
  induction ks generalizing fuel recnum c m with
  | nil =>
    obtain ⟨fuel, rfl⟩ := Nat.exists_eq_succ_of_ne_zero (Nat.ne_of_gt hfuel)
    obtain ⟨v, hv, hret⟩ := hend (frames recnum) c m hc
    simp only [threadEntry, threadRound_stopped hv hret, seedsOf]
  | cons k ks ih =>
    obtain ⟨fuel, rfl⟩ := Nat.exists_eq_succ_of_ne_zero (Nat.ne_of_gt (Nat.zero_lt_of_lt hfuel))
    obtain ⟨hq, hfit⟩ := hks k List.mem_cons_self
    rw [List.flatMap_cons, List.append_assoc] at hc
    obtain ⟨m', hretrieve, -⟩ := Desenitizer.retrieve_record (frames recnum) m hq hfit hc
    simp only [threadEntry, threadRound_record hq hfit hc, hretrieve, seedsOf, ktestName]
    cases genKtestFile x F .zeroed k.buf (locals recnum) with
    | none => rfl
    | some objects =>
      dsimp only
      rw [ih (fun k hk => hks k (List.mem_cons_of_mem _ hk)) (Nat.lt_of_succ_lt_succ hfuel)
        (Cursor.rest_advance hc)]

/-- The reader notices the end of a new log: nothing is left of it, or an opcode of zeros. -/
theorem retrieve_of_replicate {z : ℕ} (hz : z = 0 ∨ 4 ≤ z) (frame : Mem) (c : Cursor) (m : Mem)
    (hc : c.rest = List.replicate z 0) :
    ∃ v < 0, (Desenitizer.retrieve frame c m).1 = .returned v := by
  rcases hz with rfl | hz
  · exact ⟨-1, by decide, Desenitizer.retrieve_of_end frame m hc⟩
  · obtain ⟨z, rfl⟩ := Nat.exists_eq_add_of_le hz
    rw [List.replicate_add] at hc
    exact ⟨-2, by decide, Desenitizer.retrieve_of_zero frame m hc⟩

/-- The file that a round has written. -/
def Round.fileName : Round → Option String
  | wrote name _ => some name
  | skipped | stopped | undefined => none

/-- The files are those of the first records. -/
theorem fileNames_seedsOf (recnum : ℕ) (ks : List Completed) :
    (seedsOf x F locals recnum ks).filterMap Round.fileName <+:
      (List.range' recnum ks.length).map ktestName := by
  induction ks generalizing recnum with
  | nil => exact List.prefix_rfl
  | cons k ks ih =>
    rw [seedsOf]
    cases genKtestFile x F .zeroed k.buf (locals recnum) with
    | none => exact List.nil_prefix
    | some objects =>
      obtain ⟨rest, hrest⟩ := ih (recnum + 1)
      exact ⟨rest, by rw [List.length_cons, List.range'_succ, List.map_cons, ← hrest]; rfl⟩

theorem fileNames_of_isSome {recnum : ℕ} {ks : List Completed}
    (h : ∀ i k, ks[i]? = some k →
      (genKtestFile x F .zeroed k.buf (locals (recnum + i))).isSome) :
    (seedsOf x F locals recnum ks).filterMap Round.fileName =
      (List.range' recnum ks.length).map ktestName := by
  induction ks generalizing recnum with
  | nil => rfl
  | cons k ks ih =>
    obtain ⟨objects, hgen⟩ := Option.isSome_iff_exists.1 (h 0 k rfl)
    have hrest : (seedsOf x F locals (recnum + 1) ks).filterMap Round.fileName = _ :=
      ih fun i k hk => by
        rw [Nat.add_assoc, Nat.add_comm 1 i]
        exact h (i + 1) k hk
    rw [Nat.add_zero] at hgen
    rw [seedsOf, hgen, List.length_cons, List.range'_succ, List.map_cons, ← hrest]
    rfl

theorem ktestName_injective : Function.Injective ktestName := by
  intro i j h
  have hlists := congrArg String.toList h
  simp only [ktestName, String.toList_append, List.append_cancel_right_eq,
    List.append_cancel_left_eq] at hlists
  have hdigits : Nat.toDigits 10 i = Nat.toDigits 10 j := by
    simpa only [Nat.toString_eq_repr, Nat.toList_repr] using hlists
  rw [← Nat.ofDigitChars_ten_toDigits (n := i), hdigits, Nat.ofDigitChars_ten_toDigits]

/-- A name and its zero fit into `ktest_file`. -/
theorem length_ktestName_lt {i : ℕ} (hi : i < 2 ^ 31) : (ktestName i).length < 30 := by
  have hdigits : (toString i).length ≤ 10 :=
    Nat.repr_length i 10 (by decide) (hi.trans (by decide))
  simp only [ktestName, String.length_append]
  have hstart : "ktests/".length = 7 := rfl
  have hrest : "-gen.ktest".length = 10 := rfl
  omega

/-- **The anonymizer turns a new log into one file for each record**: in the order of the log,
none twice, none skipped, until the log is over, a number in a record has no `int` value, or the
zero that ends a text falls outside its array. -/
theorem threadEntry_log (x : Mbedtls) (F : FloatOps) (frames : ℕ → Mem) (locals : ℕ → Locals)
    (m : Mem) (ks : List Completed) (hks : ∀ k ∈ ks, k.req.Logged ∧ k.req.ResultFits k.buf)
    (hcount : ks.length ≤ 2 ^ 31) (R : Recorder) (hR : recordRun [] ks = some R)
    (hroom : (ks.flatMap Completed.encoding).length % dataLength = 0 ∨
      (ks.flatMap Completed.encoding).length % dataLength + 4 ≤ dataLength)
    (fuel : ℕ) (hfuel : ks.length < fuel) :
    threadEntry x F frames locals fuel 0 ⟨R.file, 0⟩ m = seedsOf x F locals 0 ks ∧
      ((seedsOf x F locals 0 ks).filterMap Round.fileName).Nodup ∧
      (∀ name ∈ (seedsOf x F locals 0 ks).filterMap Round.fileName, name.length < 30) ∧
      ((∀ i k, ks[i]? = some k → (genKtestFile x F .zeroed k.buf (locals i)).isSome) →
        (seedsOf x F locals 0 ks).filterMap Round.fileName =
          (List.range ks.length).map ktestName) := by
  have hnames : (seedsOf x F locals 0 ks).filterMap Round.fileName <+: _ := fileNames_seedsOf 0 ks
  refine ⟨?_, ?_, fun name hname => ?_, fun h => ?_⟩
  · refine threadEntry_eq_seedsOf hks (retrieve_of_replicate ?_) hfuel (file_of_newLog hR)
    generalize (ks.flatMap Completed.encoding).length = n at hroom
    unfold dataLength at *
    omega
  · exact hnames.sublist.nodup ((List.nodup_range' ..).map ktestName_injective)
  · obtain ⟨i, hi, rfl⟩ := List.mem_map.1 (hnames.subset hname)
    refine length_ktestName_lt ?_
    have := List.mem_range'_1.1 hi
    omega
  · rw [List.range_eq_range']
    refine fileNames_of_isSome fun i k hk => ?_
    rw [Nat.zero_add]
    exact h i k hk

theorem length_encoding_sevenRecord : sevenRecord.encoding.length = 84 := by
  rw [Completed.encoding, (Recorder.encoding_cmp sevenRecord.holds).2]
  simp [Bytes.size, length_intBytes]

/-- The log of two comparisons of 7 with 7. -/
theorem threadEntry_log_sevenRecord : ∃ R,
    recordRun [] [sevenRecord, sevenRecord] = some R ∧ ∀ (frames : ℕ → Mem) (locals : ℕ → Locals)
      (m : Mem), (threadEntry .untouched .null frames locals 3 0 ⟨R.file, 0⟩ m).filterMap
        Round.fileName = ["ktests/0-gen.ktest", "ktests/1-gen.ktest"] := by
  have hks : ∀ k ∈ [sevenRecord, sevenRecord], k.req.Logged ∧ k.req.ResultFits k.buf := by
    simp [sevenRecord, Request.Logged, Request.ResultFits]
  obtain ⟨R, hR⟩ := recordRun_isSome [] [sevenRecord, sevenRecord] hks
  refine ⟨R, hR, fun frames locals m => ?_⟩
  have hlen : ([sevenRecord, sevenRecord].flatMap Completed.encoding).length = 168 := by
    simp [length_encoding_sevenRecord]
  obtain ⟨hrun, -, -, hnames⟩ := threadEntry_log .untouched .null frames locals m _ hks
    (by decide) R hR (.inr (by rw [hlen]; decide)) 3 (by decide)
  rw [hrun, hnames fun i k hk => ?_]
  · rfl
  · obtain rfl : k = sevenRecord := by simpa using List.mem_of_getElem? hk
    rw [genKtestFile, sevenRecord.holds.reqType, Cmd.ofCode_code]
    rfl

end Anonymizer

end HEDB
