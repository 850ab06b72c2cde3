import HEDB.Anonymizer.Generator

/-!
# Seeds of records

What the anonymizer writes for a log record. A ktest file determines the operands in it
(`seed_inj`), so a round of the main loop that writes the file of the plaintexts has found them in
its buffers (`openedAll_of_faithful`). But the main thread never calls `gcm_init`. No record of an
operation on `EncInt`, `EncText` or `EncTimestamp` is turned into the seed of its plaintexts, padded
with zeros, on every run (`threadRound_unfaithful`).
-/

namespace HEDB

namespace Anonymizer

open Layout KTest

/-! ## Files and operands -/

section Files

variable {x : Mbedtls} {F : FloatOps} {ctx : Context} {l l' : Locals} {q : Request}

/-- The plaintexts have the sizes of the data in the ciphertexts. -/
def DataSizes (cs ps : List (List UInt8)) : Prop :=
  List.Forall₂ (fun c p => p.length = c.length - (ivSize + tagSize)) cs ps

theorem dataSizes_of_decrypts {g : Gcm} {cs ps : List (List UInt8)}
    (h : List.Forall₂ g.Decrypts cs ps) : DataSizes cs ps :=
  h.imp fun _ _ hp => hp.length_eq

theorem dataSizes_openedItems (array : Mem) {cs : List (List UInt8)}
    (hcs : ∀ c ∈ cs, c.length = encInt32Length) (i : ℕ) :
    DataSizes cs (openedItems x ctx array cs i) := by
  induction cs generalizing i with
  | nil => exact .nil
  | cons c cs ih =>
    have hlen : (array.read (4 * i) 4).length = c.length - (ivSize + tagSize) := by
      rw [Mem.length_read, hcs c List.mem_cons_self]
      rfl
    refine .cons ?_ (ih (fun c hc => hcs c (List.mem_cons_of_mem _ hc)) (i + 1))
    rw [Mbedtls.length_decryptBytesIn _ hlen, hlen]

theorem dataSizes_openedAll (hq : q.Seedable) (l : Locals) :
    DataSizes q.ciphertexts (openedAll x ctx q l) := by
  have hopened (c : List UInt8) (buf : Mem) :
      (opened x ctx c buf).length = c.length - (ivSize + tagSize) := length_opened c buf
  cases q with
  | bulk n items hn =>
    refine dataSizes_openedItems l.fst (fun c hc => ?_) 0
    obtain ⟨b, -, rfl⟩ := List.mem_map.1 hc
    rw [b.size, n.size_eq]
    rfl
  | cmp | calcNum | strCmp | strLike | concat =>
    exact .cons (hopened _ _) (.cons (hopened _ _) .nil)
  | extractYear => exact .cons (hopened _ _) .nil
  | substring => exact .cons (hopened _ _) (.cons (hopened _ _) (.cons (hopened _ _) .nil))
  | enc | dec | strEnc | strDec | evalExpr => exact hq.elim

theorem seedText_inj {p p' : List UInt8} {data data' : Mem} (hlen : p.length = p'.length)
    (h : seedText p data = seedText p' data') : p = p' ∧ (p' = [] → data 1 = data' 1) := by
  obtain ⟨rfl, htail⟩ := List.append_inj h hlen
  refine ⟨rfl, fun hp => ?_⟩
  subst hp
  exact Mem.read_eq_iff.1 (List.cons.inj htail).2 0 (by decide)

theorem DataSizes.eq_of_flatten_append {cs ps ps' : List (List UInt8)} (hps : DataSizes cs ps)
    (hps' : DataSizes cs ps') {as bs : List UInt8} (h : ps.flatten ++ as = ps'.flatten ++ bs) :
    ps = ps' ∧ as = bs := by
  induction hps generalizing ps' with
  | nil =>
    cases hps'
    exact ⟨rfl, h⟩
  | cons hp _ ih =>
    cases hps' with
    | cons hp' htail' =>
      rw [List.flatten_cons, List.flatten_cons, List.append_assoc, List.append_assoc] at h
      obtain ⟨rfl, hrest⟩ := List.append_inj h (hp.trans hp'.symm)
      obtain ⟨rfl, has⟩ := ih htail' hrest
      exact ⟨rfl, has⟩

theorem DataSizes.length_flatten {cs ps ps' : List (List UInt8)} (hps : DataSizes cs ps)
    (hps' : DataSizes cs ps') : ps.flatten.length = ps'.flatten.length := by
  induction hps generalizing ps' with
  | nil =>
    cases hps'
    rfl
  | cons hp _ ih =>
    cases hps' with
    | cons hp' htail => simp only [List.flatten_cons, List.length_append, hp, hp', ih htail]

theorem seedArray_inj {cs ps ps' : List (List UInt8)} {array array' : Mem}
    (hps : DataSizes cs ps) (hps' : DataSizes cs ps')
    (h : seedArray ps array = seedArray ps' array') :
    ps = ps' ∧ (ps' = [] → array 1 = array' 1) := by
  obtain ⟨rfl, htail⟩ := hps.eq_of_flatten_append hps' h
  refine ⟨rfl, fun hp => ?_⟩
  subst hp
  exact Mem.read_eq_iff.1 htail 1 (by decide)

theorem length_seedText {p p' : List UInt8} (data data' : Mem) (h : p.length = p'.length) :
    (seedText p data).length = (seedText p' data').length := by
  simp [seedText, h]

/-- Two lists of objects that differ in a text operand and what follows it. -/
theorem cons_seedText_inj {name : String} {p p' : List UInt8} {data data' : Mem}
    {objects objects' : List KTestObject} (hp : p.length = p'.length)
    (h : KTestObject.mk name (seedText p data) :: objects =
      ⟨name, seedText p' data'⟩ :: objects') :
    p = p' ∧ (p' = [] → data 1 = data' 1) ∧ objects = objects' := by
  obtain ⟨hobject, hobjects⟩ := List.cons.inj h
  obtain ⟨rfl, hbehind⟩ := seedText_inj hp (congrArg KTestObject.bytes hobject)
  exact ⟨rfl, hbehind, hobjects⟩

/-- Two lists of two text operands. -/
theorem seedText_pair_inj {name name' : String} {p p' r r' : List UInt8}
    (hp : p.length = p'.length) (hr : r.length = r'.length)
    (h : [KTestObject.mk name (seedText p l.fst), ⟨name', seedText r l.snd⟩] =
      [⟨name, seedText p' l'.fst⟩, ⟨name', seedText r' l'.snd⟩]) :
    [p, r] = [p', r'] ∧ (p' = [] → l.fst 1 = l'.fst 1) := by
  obtain ⟨rfl, hbehind, htail⟩ := cons_seedText_inj hp h
  obtain ⟨rfl, -, -⟩ := cons_seedText_inj hr htail
  exact ⟨rfl, hbehind⟩

/-- Equal files of one operation have equal objects. -/
theorem seedOperands_inj {cmd : Cmd} {os ps : List (List UInt8)}
    (hshape : List.Forall₂ SameShape (seedOperands l cmd os) (seedOperands l' cmd ps))
    (h : toFile (seed l cmd os) = toFile (seed l' cmd ps)) :
    seedOperands l cmd os = seedOperands l' cmd ps := by
  have hobjects := toFile_inj (.cons ⟨rfl, rfl⟩ (.cons ⟨rfl, rfl⟩ hshape)) h
  exact (List.cons.inj (List.cons.inj hobjects).2).2

/-- The operands of a fixed width are not empty. -/
theorem headD_ne_nil {w : ℕ} {c : Bytes w} {p : List UInt8} {ps : List (List UInt8)}
    (hw : ivSize + tagSize < w) (hp : p.length = c.bytes.length - (ivSize + tagSize)) :
    (p :: ps).headD [] ≠ [] := by
  rw [c.size] at hp
  exact List.ne_nil_of_length_pos (show 0 < p.length by omega)

/-- **Equal files have equal operands.** If the first operand is empty, or there is none, they agree
on what follows as well. -/
theorem seed_inj {os ps : List (List UInt8)} (hq : q.Seedable) (hos : DataSizes q.ciphertexts os)
    (hps : DataSizes q.ciphertexts ps)
    (h : toFile (seed l q.cmd os) = toFile (seed l' q.cmd ps)) :
    os = ps ∧ (ps.headD [] = [] → l.fst 1 = l'.fst 1) := by
  cases q with
  | cmp f left right =>
    rcases hos with _ | ⟨ho, _ | ⟨ho', _ | _⟩⟩
    rcases hps with _ | ⟨hp, _ | ⟨hp', _ | _⟩⟩
    have hlen := ho.trans hp.symm
    have hlen' := ho'.trans hp'.symm
    refine ⟨?_, fun hnil => absurd hnil (headD_ne_nil (by cases f <;> decide) hp)⟩
    cases f with
    | int | timestamp =>
      cases seedOperands_inj (.cons ⟨rfl, hlen⟩ (.cons ⟨rfl, hlen'⟩ .nil)) h
      rfl
    | float => exact hq.elim
  | calcNum n op left right =>
    cases n with
    | int =>
      rcases hos with _ | ⟨ho, _ | ⟨ho', _ | _⟩⟩
      rcases hps with _ | ⟨hp, _ | ⟨hp', _ | _⟩⟩
      refine ⟨?_, fun hnil => absurd hnil (headD_ne_nil (by decide) hp)⟩
      have hobjects := seedOperands_inj (by
        rw [Request.cmd, seedOperands_calcCmd, seedOperands_calcCmd]
        exact .cons ⟨rfl, rfl⟩
          (.cons ⟨rfl, ho.trans hp.symm⟩ (.cons ⟨rfl, ho'.trans hp'.symm⟩ .nil)))
        h
      rw [Request.cmd, seedOperands_calcCmd, seedOperands_calcCmd] at hobjects
      cases hobjects
      rfl
    | float => exact hq.elim
  | bulk n items hn =>
    cases n with
    | int =>
      have hcount : os.length = ps.length := hos.length_eq.symm.trans hps.length_eq
      have hflat : os.flatten.length = ps.flatten.length := hos.length_flatten hps
      have hsize : (seedArray os l.fst).length = (seedArray ps l'.fst).length := by
        simp [seedArray, hcount, hflat]
      have hobjects := seedOperands_inj
        (.cons ⟨rfl, rfl⟩ (.cons ⟨rfl, rfl⟩ (.cons ⟨rfl, hsize⟩ .nil))) h
      have harray : seedArray os l.fst = seedArray ps l'.fst :=
        congrArg KTestObject.bytes (List.cons.inj (List.cons.inj (List.cons.inj hobjects).2).2).1
      obtain ⟨rfl, hbehind⟩ := seedArray_inj hos hps harray
      refine ⟨rfl, fun hnil => hbehind ?_⟩
      cases items with
      | nil =>
        cases hps
        rfl
      | cons c items =>
        cases hps with
        | cons hp _ => exact absurd hnil (headD_ne_nil (by decide) hp)
    | float => exact hq.elim
  | extractYear input =>
    rcases hos with _ | ⟨ho, _ | _⟩
    rcases hps with _ | ⟨hp, _ | _⟩
    refine ⟨?_, fun hnil => absurd hnil (headD_ne_nil (by decide) hp)⟩
    cases seedOperands_inj (.cons ⟨rfl, ho.trans hp.symm⟩ .nil) h
    rfl
  | strCmp left right | strLike left right | concat left right =>
    rcases hos with _ | ⟨ho, _ | ⟨ho', _ | _⟩⟩
    rcases hps with _ | ⟨hp, _ | ⟨hp', _ | _⟩⟩
    have hlen := ho.trans hp.symm
    have hlen' := ho'.trans hp'.symm
    exact seedText_pair_inj hlen hlen' (seedOperands_inj
      (.cons ⟨rfl, length_seedText _ _ hlen⟩ (.cons ⟨rfl, length_seedText _ _ hlen'⟩ .nil)) h)
  | substring str start length =>
    rcases hos with _ | ⟨ho, _ | ⟨ho', _ | ⟨ho'', _ | _⟩⟩⟩
    rcases hps with _ | ⟨hp, _ | ⟨hp', _ | ⟨hp'', _ | _⟩⟩⟩
    have hlen := ho.trans hp.symm
    have hobjects := seedOperands_inj (.cons ⟨rfl, length_seedText _ _ hlen⟩
      (.cons ⟨rfl, ho'.trans hp'.symm⟩ (.cons ⟨rfl, ho''.trans hp''.symm⟩ .nil))) h
    obtain ⟨rfl, hbehind, htail⟩ := cons_seedText_inj hlen hobjects
    cases htail
    exact ⟨rfl, hbehind⟩
  | enc | dec | strEnc | strDec | evalExpr => exact hq.elim

/-- What stands in the first buffer. -/
theorem headD_openedAll {c : List UInt8} {cs : List (List UInt8)} (hq : q.Seedable)
    (hc : q.ciphertexts = c :: cs) :
    (openedAll x ctx q l).headD [] = opened x ctx c l.fst := by
  cases q with
  | bulk n items hn =>
    cases items with
    | nil => cases hc
    | cons item items =>
      cases hc
      have hsize : item.bytes.length - (ivSize + tagSize) = 4 := by
        rw [item.size, n.size_eq]
        rfl
      rw [opened, hsize]
      rfl
  | cmp | calcNum | extractYear | strCmp | strLike | substring | concat =>
    cases hc
    rfl
  | enc | dec | strEnc | strDec | evalExpr => exact hq.elim

end Files

/-! ## The main loop -/

/-- How a round of the loop of `thread_entry` ends. -/
inductive Round
  /-- It has written a file of this name and contents. -/
  | wrote (name : String) (file : List UInt8)
  | skipped
  | stopped
  | undefined

/-- One round of the loop of `thread_entry`, for the record with number `recnum`. The context is
that of the main thread, where `gcm_init` has not been called. -/
def threadRound (x : Mbedtls) (F : FloatOps) (m : Mem) (l : Locals) (recnum : ℕ) (frame : Mem)
    (c : Cursor) : Round :=
  match Desenitizer.retrieve frame c m with
  | (.returned resp, _, m) =>
    if resp < 0 then .stopped
    else if 100 < m.int reqType ∧ m.int reqType ≤ 110 then .skipped
    else match genKtestFile x F .zeroed m l with
      | some objects => .wrote ("ktests/" ++ toString recnum ++ "-gen.ktest") (toFile objects)
      | none => .undefined
  | _ => .undefined

/-! ## Records -/

section Records

variable {x : Mbedtls} {F : FloatOps} {k : Completed} {c : Cursor} {tl : List UInt8}

/-- No opcode is between 100 and 110. -/
theorem code_le (cmd : Cmd) : cmd.code ≤ 100 := by
  cases cmd <;> decide

/-- **On every record the anonymizer generates the file of its request.** -/
theorem threadRound_record (hq : k.req.Logged) (hfit : k.req.ResultFits k.buf)
    (hc : c.rest = k.encoding ++ tl) (recnum : ℕ) (frame m : Mem) (l : Locals) :
    threadRound x F m l recnum frame c =
      match genKtestFile x F .zeroed k.buf l with
      | some objects => .wrote ("ktests/" ++ toString recnum ++ "-gen.ktest") (toFile objects)
      | none => .undefined := by
  obtain ⟨m', hretrieve, hyields⟩ := Desenitizer.retrieve_record frame m hq hfit hc
  have htype : m'.int reqType = k.req.cmd.code := hyields.reqType
  have hle := code_le k.req.cmd
  rw [threadRound, hretrieve]
  simp only [htype]
  rw [if_neg (by decide), if_neg (by omega), genKtestFile_congr k.holds hq htype hyields.operands]

/-- The file that the plaintexts of a record determine: its name, the opcode and the operands, with
texts and arrays padded with zeros. -/
def faithfulRound (recnum : ℕ) (cmd : Cmd) (ps : List (List UInt8)) : Round :=
  .wrote ("ktests/" ++ toString recnum ++ "-gen.ktest") (toFile (seed .zero cmd ps))

/-- A round that writes the file of the plaintexts has found them in its buffers. -/
theorem openedAll_of_faithful {ps : List (List UInt8)} {recnum : ℕ} {frame m : Mem} {l : Locals}
    (hq : k.req.Seedable) (hfit : k.req.ResultFits k.buf) (hc : c.rest = k.encoding ++ tl)
    (hps : List.Forall₂ x.Decrypts k.req.ciphertexts ps)
    (h : threadRound x F m l recnum frame c = faithfulRound recnum k.req.cmd ps) :
    openedAll x .zeroed k.req l = ps ∧ (ps.headD [] = [] → l.fst 1 = 0) := by
  rw [threadRound_record hq.logged hfit hc] at h
  cases hgen : genKtestFile x F .zeroed k.buf l with
  | none =>
    rw [hgen] at h
    cases h
  | some objects =>
    rw [hgen] at h
    have hfile : toFile objects = toFile (seed .zero k.req.cmd ps) := (Round.wrote.inj h).2
    rw [genKtestFile_eq k.holds hq hgen] at hfile
    exact seed_inj hq (dataSizes_openedAll hq l) (dataSizes_of_decrypts hps) hfile

/-- **No record of an operation on `EncInt`, `EncText` or `EncTimestamp` is turned into the seed of
its plaintexts.** There are contents of the buffers for which the anonymizer writes something
else. -/
theorem threadRound_unfaithful (hx : x.Withholds) (hq : k.req.Seedable)
    (hfit : k.req.ResultFits k.buf) (hc : c.rest = k.encoding ++ tl) {ps : List (List UInt8)}
    (hps : List.Forall₂ x.Decrypts k.req.ciphertexts ps) (recnum : ℕ) (frame m : Mem) :
    ¬ ∀ l, threadRound x F m l recnum frame c = faithfulRound recnum k.req.cmd ps := by
  intro h
  have hbuffers (l : Locals) := openedAll_of_faithful hq hfit hc hps (h l)
  by_cases hnil : ps.headD [] = []
  · -- The first operand is an empty text, or the array is empty: what follows is not zero.
    have hone := (hbuffers ⟨fun _ => 1, Mem.zero, Mem.zero⟩).2 hnil
    exact absurd hone (by decide)
  · -- The first operand is not decrypted.
    cases ps with
    | nil => exact hnil rfl
    | cons p ps =>
      obtain ⟨src, cs, hp, -, hcs⟩ := List.forall₂_cons_right_iff.1 hps
      obtain ⟨dst, hdst, hne⟩ := hx.exists_ne hp hnil
      let l : Locals := ⟨Mem.zero.write 0 dst, Mem.zero, Mem.zero⟩
      have hread : l.fst.read 0 (src.length - (ivSize + tagSize)) = dst :=
        Mem.read_write_of_length _ _ _ _ (hdst.trans hp.length_eq)
      have hhead : (openedAll x .zeroed k.req l).headD [] = _ := headD_openedAll hq hcs
      rw [(hbuffers l).1, opened, hread] at hhead
      exact hne hhead.symm

/-- The record of a comparison of 7 with itself. -/
def sevenRecord : Completed where
  req := .cmp .int cipherSeven cipherSeven
  buf := (Request.cmp .int cipherSeven cipherSeven).serializeTo Mem.zero
  timestamp := Replayer.zeroBytes _
  holds := Request.in_serializeTo _ Mem.zero

theorem rest_sevenRecord : (Cursor.mk sevenRecord.encoding 0).rest = sevenRecord.encoding ++ [] :=
  (List.append_nil _).symm

theorem decrypts_sevenRecord : List.Forall₂ Mbedtls.untouched.Decrypts
    sevenRecord.req.ciphertexts [intBytes 7, intBytes 7] :=
  .cons rfl (.cons rfl .nil)

theorem threadRound_unfaithful_seven :
    Mbedtls.untouched.Withholds ∧ sevenRecord.req.Seedable ∧
      ¬ ∀ l, threadRound .untouched .null Mem.zero l 0 Mem.zero ⟨sevenRecord.encoding, 0⟩ =
        faithfulRound 0 .intCmp [intBytes 7, intBytes 7] := by
  have hq : sevenRecord.req.Seedable := trivial
  exact ⟨Mbedtls.withholds_untouched, hq, threadRound_unfaithful Mbedtls.withholds_untouched hq
    trivial rest_sevenRecord decrypts_sevenRecord 0 Mem.zero Mem.zero⟩

/-- The file of the comparison holds what the locals held. -/
theorem threadRound_sevenRecord (l : Locals) :
    threadRound .untouched .null Mem.zero l 0 Mem.zero ⟨sevenRecord.encoding, 0⟩ =
      .wrote ("ktests/" ++ toString 0 ++ "-gen.ktest")
        (toFile (seed l .intCmp [l.fst.read 0 4, l.snd.read 0 4])) := by
  have hq : sevenRecord.req.Seedable := trivial
  have hsome : ∃ objects,
      genKtestFile .untouched .null .zeroed sevenRecord.buf l = some objects := by
    rw [genKtestFile, sevenRecord.holds.reqType, Cmd.ofCode_code]
    exact ⟨_, rfl⟩
  obtain ⟨objects, hgen⟩ := hsome
  rw [threadRound_record hq.logged trivial rest_sevenRecord, hgen,
    genKtestFile_eq sevenRecord.holds hq hgen]
  rfl

/-- **Two runs on one record write different files**, neither of which holds the operands. -/
theorem threadRound_seven_varies :
    ∃ l l' : Locals,
      threadRound .untouched .null Mem.zero l 0 Mem.zero ⟨sevenRecord.encoding, 0⟩ ≠
          threadRound .untouched .null Mem.zero l' 0 Mem.zero ⟨sevenRecord.encoding, 0⟩ ∧
        ∀ r ∈ [l, l'], threadRound .untouched .null Mem.zero r 0 Mem.zero
          ⟨sevenRecord.encoding, 0⟩ ≠ faithfulRound 0 .intCmp [intBytes 7, intBytes 7] := by
  have hq : sevenRecord.req.Seedable := trivial
  have hsizes (l : Locals) : DataSizes sevenRecord.req.ciphertexts
      [l.fst.read 0 4, l.snd.read 0 4] :=
    .cons (Mem.length_read ..) (.cons (Mem.length_read ..) .nil)
  -- Files of different operands are different.
  have hne {l l' : Locals} {ps : List (List UInt8)} (hps : DataSizes sevenRecord.req.ciphertexts ps)
      (h : [l.fst.read 0 4, l.snd.read 0 4] ≠ ps) :
      Round.wrote ("ktests/" ++ toString 0 ++ "-gen.ktest")
          (toFile (seed l .intCmp [l.fst.read 0 4, l.snd.read 0 4])) ≠
        .wrote ("ktests/" ++ toString 0 ++ "-gen.ktest") (toFile (seed l' .intCmp ps)) := fun heq =>
    h (seed_inj hq (hsizes l) hps (Round.wrote.inj heq).2).1
  refine ⟨.zero, ⟨fun _ => 1, fun _ => 1, fun _ => 1⟩, ?_, ?_⟩
  · rw [threadRound_sevenRecord, threadRound_sevenRecord]
    exact hne (hsizes _) (by decide)
  · intro r hr
    rw [threadRound_sevenRecord]
    apply hne (dataSizes_of_decrypts decrypts_sevenRecord)
    rcases List.mem_pair.1 hr with rfl | rfl <;> decide

end Records

end Anonymizer

end HEDB
