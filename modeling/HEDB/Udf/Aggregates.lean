import HEDB.Foundations.Windows
import HEDB.Pipeline.Calls
import HEDB.PlainOps.Faults

/-!
# Sums and averages of arrays

`enc_int4_sum_bulk` and `enc_float4_sum_bulk` collect the items of an array in a window of
`BULK_SIZE` entries and send a request for each full window; the sum of a window is the first entry
of the next one. On plaintexts this is `windowedSum` (`sumBulk_eq`), each element goes to the
privacy zone once, and no request has fewer than two items (`Feeds`). For `int` the result is the
sum of the array whenever no running sum overflows, and on a target whose `int`s wrap around it is
the wrapped sum of any array (`sumBulk_spec`).

The averages sum a second window in the same way, of ciphertexts of one. They take the one from the
first element, divided by itself, and the number of elements from the second window.
-/

namespace HEDB

namespace Udf

open Layout

/-- The client of the privacy zone: the process behind the region, and the requests sent so far. -/
structure Client where
  process : OpsProcess
  sent : List Request

/-- Code that sends requests and may raise an error. -/
abbrev Sends : Type → Type := ExceptT ℤ (StateT Client Option)

section Functions

variable (g : Gcm) (F : FloatOps) (n : Num)

/-- A call whose result is a number. -/
def callNum (q : Request) : Sends (Bytes n.size) := ExceptT.mk fun c => do
  let reply ← sendRequest g F q c.process
  if h : reply.result.length = n.size then
    some (if reply.resp ≠ 0 then .error reply.resp else .ok ⟨reply.result, h⟩,
      ⟨reply.process, c.sent ++ [q]⟩)
  else none

/-- `enc_int_sum_bulk` and `enc_float_sum_bulk`. There is no room for more than `BULK_SIZE`
items. -/
def encSumBulk (items : List (Bytes n.size)) : Sends (Bytes n.size) :=
  if h : items.length ≤ HEDB.bulkSize then callNum g F n (.bulk n items h) else ExceptT.mk fun _ =>
    none

/-- `enc_int_div` and `enc_float_div`. -/
def encDiv (left right : Bytes n.size) : Sends (Bytes n.size) :=
  callNum g F n (.calcNum n .div left right)

end Functions

variable {n : Num}

/-- A window: `sum_array`, `counter` and `sum`. Entries from `counter` on are stale. -/
structure Window (n : Num) where
  array : ℕ → Bytes n.size
  counter : ℕ
  sum : Bytes n.size

namespace Window

/-- The entries in use. -/
def items (w : Window n) : List (Bytes n.size) := (List.range w.counter).map w.array

/-- The entries in use are summed. -/
def flush (g : Gcm) (F : FloatOps) (w : Window n) : Sends (Window n) := do
  let sum ← encSumBulk g F n w.items
  return { w with sum := sum }

/-- The body of the loop. -/
def push (g : Gcm) (F : FloatOps) (w : Window n) (value : Bytes n.size) : Sends (Window n) := do
  let w := { w with array := Function.update w.array w.counter value, counter := w.counter + 1 }
  if w.counter = HEDB.bulkSize then
    let w ← w.flush g F
    return { w with array := Function.update w.array 0 w.sum, counter := 1 }
  else return w

/-- After the loop. -/
def finish (g : Gcm) (F : FloatOps) (w : Window n) : Sends (Window n) :=
  if 1 < w.counter then w.flush g F else return w

/-- The body of the loop of an average. A full window is flushed together with the window of
ones. -/
def pushBoth (g : Gcm) (F : FloatOps) (unit : Bytes n.size) (ws : Window n × Window n)
    (value : Bytes n.size) : Sends (Window n × Window n) := do
  let sums ← ws.1.push g F value
  let nums ← ws.2.push g F unit
  return (sums, nums)

/-- The window before the loop. -/
def start (stack : ℕ → Bytes n.size) (value sum : Bytes n.size) : Window n :=
  ⟨Function.update stack 0 value, 1, sum⟩

end Window

section Functions

variable (g : Gcm) (F : FloatOps) (n : Num)

/-- The sum of an array. The window is on the `stack`. -/
def sumBulk (stack : ℕ → Bytes n.size) : List (Bytes n.size) → Sends (Bytes n.size)
  | [] => ExceptT.mk fun _ => none
  | value :: values => do
    let w ← values.foldlM (Window.push g F) (.start stack value value)
    let w ← w.finish g F
    return w.sum

/-- `enc_int4_sum_bulk`. -/
def encInt4SumBulk := sumBulk g F .int

/-- `enc_float4_sum_bulk`. -/
def encFloat4SumBulk := sumBulk g F .float

/-- The average of an array. `num` is not initialised. -/
def avgBulk (stack : ℕ → Bytes n.size) (num : Bytes n.size) : List (Bytes n.size) →
    Sends (Bytes n.size)
  | [] => ExceptT.mk fun _ => none
  | value :: values => do
    let unit ← encDiv g F n value value
    let ws ← values.foldlM (Window.pushBoth g F unit)
      (.start stack value value, .start (fun _ => unit) unit num)
    let sums ← ws.1.finish g F
    let nums ← ws.2.finish g F
    encDiv g F n sums.sum nums.sum

/-- `enc_int4_avg_bulk`. -/
def encInt4AvgBulk := avgBulk g F .int

/-- `enc_float4_avg_bulk`. -/
def encFloat4AvgBulk := avgBulk g F .float

end Functions

variable {g : Gcm} {F : FloatOps}

/-! ## Running -/

theorem run_bind {α β : Type} {m : Sends α} {f : α → Sends β} {c c' : Client} {a : α}
    (h : m c = some (.ok a, c')) : (m >>= f) c = f a c' := by
  change (m c).bind _ = _
  rw [h]
  rfl

theorem run_bind_none {α β : Type} {m : Sends α} {f : α → Sends β} {c : Client}
    (h : m c = none) : (m >>= f) c = none := by
  change (m c).bind _ = _
  rw [h]
  rfl

/-! ## Calls -/

theorem length_result {q : Request} {r : OpsProcess} {reply : Reply}
    (h : sendRequest g F q r = some reply)
    (hq : ∀ m, (q.copyResultFrom m).length = n.size) : reply.result.length = n.size := by
  obtain ⟨served, -, hserved⟩ := Option.bind_eq_some_iff.1 h
  cases hserved
  exact hq _

/-- A call whose branch answers it. -/
theorem callNum_ok {q : Request} {c : Client} {p : List UInt8}
    (ha : Answers g F q (HEDB.sent q c.process) (.cipher p))
    (hq : ∀ m, (q.copyResultFrom m).length = n.size) :
    ∃ v c', callNum g F n q c = some (.ok v, c') ∧ g.Decrypts v.bytes p ∧
      c'.sent = c.sent ++ [q] := by
  obtain ⟨served, hcmd, hdel⟩ := ha
  obtain ⟨reply, hsend, hresp, hresult⟩ := sendRequest_eq (by decide) hcmd
  have hlen := length_result hsend hq
  refine ⟨⟨reply.result, hlen⟩, ⟨reply.process, c.sent ++ [q]⟩, ?_, ?_, rfl⟩
  · rw [callNum, ExceptT.mk, hsend, Option.bind_eq_bind, Option.bind_some, dif_pos hlen,
      if_neg (not_not.2 hresp)]
  · show g.Decrypts reply.result p
    rw [hresult]
    exact hdel

theorem callNum_none {q : Request} {c : Client}
    (h : handleCmd g F q.cmd (HEDB.sent q c.process) = none) : callNum g F n q c = none := by
  rw [callNum, ExceptT.mk, sendRequest_eq_none h, Option.bind_eq_bind, Option.bind_none]

/-- The items are ciphertexts of the plaintexts. -/
def Encrypts (g : Gcm) (items : List (Bytes n.size)) (ps : List (List UInt8)) : Prop :=
  List.Forall₂ (fun item p => g.Decrypts item.bytes p) items ps

section Calls

variable {items : List (Bytes n.size)} {ps : List (List UInt8)} {p : List UInt8}

theorem encSumBulk_ok (h : Encrypts g items ps) (hne : items ≠ [])
    (hle : items.length ≤ HEDB.bulkSize)
    (hp : plainSumBulk F n ps = some p) (c : Client) :
    ∃ v c', encSumBulk g F n items c = some (.ok v, c') ∧ g.Decrypts v.bytes p ∧
      c'.sent = c.sent ++ [.bulk n items hle] := by
  rw [encSumBulk, dif_pos hle]
  exact callNum_ok (answers_bulk hle (in_sent _ _) hne h hp) fun m => Mem.length_read ..

theorem encSumBulk_none (h : Encrypts g items ps) (hne : items ≠ [])
    (hp : plainSumBulk F n ps = none)
    (c : Client) : encSumBulk g F n items c = none := by
  rw [encSumBulk]
  split_ifs with hle
  · refine callNum_none ?_
    rw [handleCmd_bulk hle (in_sent _ _) hne h, hp]
    rfl
  · rfl

theorem encDiv_ok {left right : Bytes n.size} {x y : List UInt8} (hx : g.Decrypts left.bytes x)
    (hy : g.Decrypts right.bytes y) (hp : plainCalc F n .div x y = some p) (c : Client) :
    ∃ v c', encDiv g F n left right c = some (.ok v, c') ∧ g.Decrypts v.bytes p ∧
      c'.sent = c.sent ++ [.calcNum n .div left right] :=
  callNum_ok (answers_calc (in_sent _ _) hx hy hp) fun _ => Mem.length_read ..

theorem encDiv_none {left right : Bytes n.size} {x y : List UInt8} (hx : g.Decrypts left.bytes x)
    (hy : g.Decrypts right.bytes y) (hp : plainCalc F n .div x y = none) (c : Client) :
    encDiv g F n left right c = none := by
  refine callNum_none ?_
  rw [handleCmd_calc (in_sent _ _) hx hy, hp]
  rfl

end Calls

/-! ## One window -/

namespace Window

/-- The entries in use are ciphertexts of the plaintexts, and the window is not full. -/
structure Inv (g : Gcm) (w : Window n) (ps : List (List UInt8)) : Prop where
  holds : Encrypts g w.items ps
  pos : 1 ≤ w.counter
  lt : w.counter < HEDB.bulkSize

/-- A window of one entry has been summed. -/
def Settled (w : Window n) : Prop := w.counter = 1 → w.items = [w.sum]

variable {w w' : Window n} {ps ps' : List (List UInt8)} {v : Bytes n.size} {p : List UInt8}

@[simp] theorem length_items (w : Window n) : w.items.length = w.counter := by simp [items]

theorem Inv.ne_nil (h : w.Inv g ps) : w.items ≠ [] :=
  List.ne_nil_of_length_pos (by rw [length_items]; exact h.pos)

/-- An entry is written behind those in use. -/
theorem items_put (w : Window n) (v sum : Bytes n.size) :
    items ⟨Function.update w.array w.counter v, w.counter + 1, sum⟩ = w.items ++ [v] := by
  simp only [items, List.range_succ, List.map_append, List.map_singleton, Function.update_self]
  congr 1
  refine List.map_congr_left fun i hi => Function.update_of_ne ?_ _ _
  exact (List.mem_range.1 hi).ne

theorem items_one (array : ℕ → Bytes n.size) (v sum : Bytes n.size) :
    items ⟨Function.update array 0 v, 1, sum⟩ = [v] := by
  simp [items]

theorem inv_start (hv : g.Decrypts v.bytes p) (stack : ℕ → Bytes n.size) (sum : Bytes n.size) :
    (start stack v sum).Inv g [p] where
  holds := by
    rw [start, items_one]
    exact .cons hv .nil
  pos := le_rfl
  lt := (by decide : 1 < HEDB.bulkSize)

/-- What an entry does to a window: the entry is kept, or a full window is summed. -/
def Pushed (w : Window n) (v : Bytes n.size) (c : Client) (w' : Window n) (c' : Client) : Prop :=
  (w'.items = w.items ++ [v] ∧ c'.sent = c.sent) ∨
    ∃ h, c'.sent = c.sent ++ [.bulk n (w.items ++ [v]) h] ∧ w'.items = [w'.sum]

theorem flush_ok (h : Encrypts g w.items ps) (hne : w.items ≠ [])
    (hle : w.items.length ≤ HEDB.bulkSize)
    (hp : plainSumBulk F n ps = some p) (c : Client) :
    ∃ sum c', w.flush g F c = some (.ok { w with sum := sum }, c') ∧ g.Decrypts sum.bytes p ∧
      c'.sent = c.sent ++ [.bulk n w.items hle] := by
  obtain ⟨sum, c', hcall, hsum, hsent⟩ := encSumBulk_ok h hne hle hp c
  exact ⟨sum, c', by rw [flush, run_bind hcall]; rfl, hsum, hsent⟩

theorem flush_none (h : Encrypts g w.items ps) (hne : w.items ≠ [])
    (hp : plainSumBulk F n ps = none)
    (c : Client) : w.flush g F c = none :=
  run_bind_none (encSumBulk_none h hne hp c)

theorem push_ok (hw : w.Inv g ps) (hv : g.Decrypts v.bytes p)
    (hps : pushWindow HEDB.bulkSize (plainSumBulk F n) ps p = some ps') (c : Client) :
    ∃ w' c', w.push g F v c = some (.ok w', c') ∧ w'.Inv g ps' ∧ w'.Settled ∧
      Pushed w v c w' c' := by
  set w₁ : Window n := ⟨Function.update w.array w.counter v, w.counter + 1, w.sum⟩ with hw₁
  have hitems : w₁.items = w.items ++ [v] := items_put w v w.sum
  have hholds : Encrypts g w₁.items (ps ++ [p]) := by
    rw [hitems]
    exact List.rel_append hw.holds (.cons hv .nil)
  have hlen : ps.length = w.counter := by rw [← hw.holds.length_eq, length_items]
  have hlt := hw.lt
  rw [pushWindow, hlen] at hps
  split_ifs at hps with hfull
  · obtain ⟨t, ht, rfl⟩ := Option.map_eq_some_iff.1 hps
    have hle : w₁.items.length ≤ HEDB.bulkSize := by rw [length_items]; exact hfull.le
    obtain ⟨sum, c', hflush, hsum, hsent⟩ := flush_ok hholds (by simp [hitems]) hle ht c
    refine ⟨⟨Function.update w₁.array 0 sum, 1, sum⟩, c', ?_, ⟨?_, le_rfl, ?_⟩, ?_, .inr ?_⟩
    · rw [push, if_pos hfull, run_bind hflush]
      rfl
    · rw [items_one]
      exact .cons hsum .nil
    · exact (by decide : 1 < HEDB.bulkSize)
    · exact fun _ => items_one ..
    · rw [← hitems]
      exact ⟨hle, hsent, items_one ..⟩
  · cases hps
    refine ⟨w₁, c, ?_, ⟨hholds, ?_, ?_⟩, ?_, .inl ⟨hitems, rfl⟩⟩
    · rw [push, if_neg hfull]
      rfl
    · exact Nat.succ_pos _
    · exact lt_of_le_of_ne hlt hfull
    · intro hone
      have := hw.pos
      exact absurd (Nat.succ.inj hone) (by omega)

theorem push_none (hw : w.Inv g ps) (hv : g.Decrypts v.bytes p)
    (hps : pushWindow HEDB.bulkSize (plainSumBulk F n) ps p = none) (c : Client) :
    w.push g F v c = none := by
  have hlen : ps.length = w.counter := by rw [← hw.holds.length_eq, length_items]
  rw [pushWindow, hlen] at hps
  split_ifs at hps with hfull
  rw [push, if_pos hfull]
  have hholds : Encrypts g (items ⟨Function.update w.array w.counter v, w.counter + 1, w.sum⟩)
      (ps ++ [p]) := by
    rw [items_put]
    exact List.rel_append hw.holds (.cons hv .nil)
  refine run_bind_none (flush_none hholds ?_ (Option.map_eq_none_iff.1 hps) c)
  rw [items_put]
  simp

theorem finish_ok (hw : w.Inv g ps) (hset : w.Settled)
    (hp : closeWindow (plainSumBulk F n) ps = some p)
    (c : Client) :
    ∃ w' c', w.finish g F c = some (.ok w', c') ∧ g.Decrypts w'.sum.bytes p ∧
      ((w.counter = 1 ∧ c'.sent = c.sent) ∨
        1 < w.counter ∧ ∃ h, c'.sent = c.sent ++ [.bulk n w.items h]) := by
  have hlen : ps.length = w.counter := by rw [← hw.holds.length_eq, length_items]
  rw [closeWindow, hlen] at hp
  split_ifs at hp with hone
  · have hle : w.items.length ≤ HEDB.bulkSize := by rw [length_items]; exact hw.lt.le
    obtain ⟨sum, c', hflush, hsum, hsent⟩ := flush_ok hw.holds hw.ne_nil hle hp c
    exact ⟨_, c', by rw [finish, if_pos hone]; exact hflush, hsum, .inr ⟨hone, hle, hsent⟩⟩
  · have hcounter : w.counter = 1 := le_antisymm (not_lt.1 hone) hw.pos
    have hholds := hw.holds
    rw [hset hcounter] at hholds
    refine ⟨w, c, by rw [finish, if_neg hone]; rfl, ?_, .inl ⟨hcounter, rfl⟩⟩
    cases hholds with
    | cons hsum hnil =>
      cases hnil
      cases hp
      exact hsum

theorem finish_none (hw : w.Inv g ps) (hp : closeWindow (plainSumBulk F n) ps = none) (c : Client) :
    w.finish g F c = none := by
  have hlen : ps.length = w.counter := by rw [← hw.holds.length_eq, length_items]
  rw [closeWindow, hlen] at hp
  split_ifs at hp with hone
  · rw [finish, if_pos hone]
    exact flush_none hw.holds hw.ne_nil hp c
  · have hpos := hw.pos
    have hnil := List.head?_eq_none_iff.1 hp
    simp [hnil] at hlen
    omega

end Window

/-! ## The loop -/

/-- The requests that were sent are bulk requests for these items, two or more each. -/
def Sent (n : Num) (c : Client) (qs : List (List (Bytes n.size))) (c' : Client) : Prop :=
  ∃ rs, c'.sent = c.sent ++ rs ∧
    List.Forall₂ (fun r items => 2 ≤ items.length ∧ ∃ h, r = Request.bulk n items h) rs qs

theorem Sent.refl (c : Client) : Sent n c [] c := ⟨[], by simp, .nil⟩

theorem Sent.of_sent_eq {c c₁ c' : Client} {qs : List (List (Bytes n.size))} (h : Sent n c qs c₁)
    (hc' : c'.sent = c₁.sent) : Sent n c qs c' := by
  obtain ⟨rs, hrs, hall⟩ := h
  exact ⟨rs, hc'.trans hrs, hall⟩

theorem Sent.trans {c c₁ c' : Client} {qs qs' : List (List (Bytes n.size))} (h : Sent n c qs c₁)
    (h' : Sent n c₁ qs' c') : Sent n c (qs ++ qs') c' := by
  obtain ⟨rs, hrs, hall⟩ := h
  obtain ⟨rs', hrs', hall'⟩ := h'
  exact ⟨rs ++ rs', by rw [hrs', hrs, List.append_assoc], List.rel_append hall hall'⟩

theorem Sent.snoc {c c₁ c' : Client} {items : List (Bytes n.size)} {qs : List (List (Bytes n.size))}
    {h : items.length ≤ HEDB.bulkSize} (hqs : Sent n c qs c₁)
    (h₁ : c'.sent = c₁.sent ++ [.bulk n items h]) (hlen : 2 ≤ items.length) :
    Sent n c (qs ++ [items]) c' := by
  obtain ⟨rs, hrs, hall⟩ := hqs
  exact ⟨rs ++ [_], by rw [h₁, hrs, List.append_assoc],
    List.rel_append hall (.cons ⟨hlen, h, rfl⟩ .nil)⟩

section Loop

variable {w : Window n} {ps qs ws ws' : List (List UInt8)} {values : List (Bytes n.size)}

/-- The whole loop: the plaintexts of the window, and the items that were sent. -/
theorem pushAll_ok (hvalues : Encrypts g values ps) (hw : w.Inv g ws)
    (hps : ps.foldlM (pushWindow HEDB.bulkSize (plainSumBulk F n)) ws = some ws') (c : Client) :
    ∃ w' c' qs, values.foldlM (Window.push g F) w c = some (.ok w', c') ∧ w'.Inv g ws' ∧
      (w.Settled → w'.Settled) ∧ Sent n c qs c' ∧
      ∀ qs₀, fresh (qs₀ ++ qs ++ [w'.items]) = fresh (qs₀ ++ [w.items]) ++ values := by
  induction hvalues generalizing w ws c with
  | nil =>
    cases hps
    exact ⟨w, c, [], rfl, hw, id, .refl c, fun qs₀ => by simp⟩
  | @cons v p values ps hv hvalues ih =>
    rw [List.foldlM_cons] at hps
    obtain ⟨ws₁, h₁, hrest⟩ := Option.bind_eq_some_iff.1 hps
    obtain ⟨w₁, c₁, hpush, hw₁, hset₁, hpushed⟩ := Window.push_ok hw hv h₁ c
    obtain ⟨w', c', qs, hloop, hw', hset', hsent, hfresh⟩ := ih hw₁ hrest c₁
    have hrun : (v :: values).foldlM (Window.push g F) w c = some (.ok w', c') := by
      rw [List.foldlM_cons, run_bind hpush]
      exact hloop
    rcases hpushed with ⟨hitems, hc₁⟩ | ⟨hle, hc₁, hitems⟩
    · refine ⟨w', c', qs, hrun, hw', fun _ => hset' hset₁, ?_, fun qs₀ => ?_⟩
      · exact (Sent.of_sent_eq (.refl c) hc₁).trans hsent
      · rw [hfresh, hitems, fresh_push _ hw.ne_nil, List.append_assoc]
        rfl
    · refine ⟨w', c', (w.items ++ [v]) :: qs, hrun, hw', fun _ => hset' hset₁, ?_, fun qs₀ => ?_⟩
      · refine ((Sent.refl c).snoc hc₁ ?_).trans hsent
        have := hw.pos
        simp
        omega
      · -- The sum that is carried over is not an item.
        have hcarry : fresh (qs₀ ++ [w.items ++ [v]] ++ [w₁.items]) =
            fresh (qs₀ ++ [w.items]) ++ [v] := by
          rw [hitems, fresh_snoc (by simp), fresh_push _ hw.ne_nil]
          exact List.append_nil _
        have hstep := hfresh (qs₀ ++ [w.items ++ [v]])
        rw [hcarry] at hstep
        simpa using hstep

theorem pushAll_none (hvalues : Encrypts g values ps) (hw : w.Inv g ws)
    (hps : ps.foldlM (pushWindow HEDB.bulkSize (plainSumBulk F n)) ws = none) (c : Client) :
    values.foldlM (Window.push g F) w c = none := by
  induction hvalues generalizing w ws c with
  | nil => cases hps
  | @cons v p values ps hv hvalues ih =>
    rw [List.foldlM_cons] at hps ⊢
    cases h₁ : pushWindow HEDB.bulkSize (plainSumBulk F n) ws p with
    | none => exact run_bind_none (Window.push_none hw hv h₁ c)
    | some ws₁ =>
      rw [h₁] at hps
      obtain ⟨w₁, c₁, hpush, hw₁, -, -⟩ := Window.push_ok hw hv h₁ c
      rw [run_bind hpush]
      exact ih hw₁ hps c₁

end Loop

/-! ## Sums -/

/-- Each element of the array goes to the privacy zone once. A single element does not go there. -/
def Feeds (array : List (Bytes n.size)) (c c' : Client) : Prop :=
  ∃ qs, Sent n c qs c' ∧ (array.length = 1 ∧ qs = [] ∨ fresh qs = array)

section Sums

variable {array : List (Bytes n.size)} {ps : List (List UInt8)}

/-- **The sum of an array is its sum in windows.** -/
theorem sumBulk_eq (h : Encrypts g array ps) (stack : ℕ → Bytes n.size) (c : Client) :
    match windowedSum HEDB.bulkSize (plainSumBulk F n) ps with
    | none => sumBulk g F n stack array c = none
    | some p => ∃ sum c', sumBulk g F n stack array c = some (.ok sum, c') ∧
        g.Decrypts sum.bytes p ∧ Feeds array c c' := by
  cases h with
  | nil => rfl
  | @cons v p values ps hv hvalues =>
    have hstart : (Window.start stack v v).Inv g [p] := Window.inv_start hv stack v
    rw [windowedSum]
    cases hps : ps.foldlM (pushWindow HEDB.bulkSize (plainSumBulk F n)) [p] with
    | none => exact run_bind_none (pushAll_none hvalues hstart hps c)
    | some ws =>
      obtain ⟨w, c₁, qs, hloop, hw, hset, hsent, hfresh⟩ := pushAll_ok hvalues hstart hps c
      have hfed := hfresh []
      rw [List.nil_append, Window.start, Window.items_one] at hfed
      rw [Option.bind_some]
      cases hclose : closeWindow (plainSumBulk F n) ws with
      | none =>
        show sumBulk g F n stack (v :: values) c = none
        rw [sumBulk, run_bind hloop]
        exact run_bind_none (Window.finish_none hw hclose c₁)
      | some t =>
        obtain ⟨w', c', hfinish, hsum, hlast⟩ :=
          Window.finish_ok hw (hset fun _ => Window.items_one ..) hclose c₁
        refine ⟨w'.sum, c', ?_, hsum, ?_⟩
        · rw [sumBulk, run_bind hloop, run_bind hfinish]
          rfl
        · rcases hlast with ⟨hone, hc'⟩ | ⟨hone, hle, hc'⟩
          · refine ⟨qs, hsent.of_sent_eq hc', ?_⟩
            cases qs with
            | nil =>
              have hlen := congrArg List.length hfed
              simp only [fresh, List.nil_append, List.flatMap_nil, List.append_nil,
                Window.length_items, hone, List.singleton_append] at hlen
              exact .inl ⟨hlen.symm, rfl⟩
            | cons q qs =>
              have htail : w.items.tail = [] := by
                rw [hset (fun _ => Window.items_one ..) hone]
                rfl
              rw [fresh_snoc (by simp), htail, List.append_nil] at hfed
              exact .inr hfed
          · exact ⟨qs ++ [w.items], hsent.snoc hc' (by rw [Window.length_items]; exact hone),
              .inr hfed⟩

end Sums

/-! ## Sums of `int` -/

/-- No running sum of the numbers overflows. -/
def SumsFit (vs : List ℤ) : Prop := ∀ k ≤ vs.length, IsInt (vs.take k).sum

instance (vs : List ℤ) : Decidable (SumsFit vs) := inferInstanceAs (Decidable (∀ k ≤ _, _))

theorem foldlM_checkedInt {a : ℤ} (ha : IsInt a) (vs : List ℤ) :
    vs.foldlM (fun res x => checkedInt (res + x)) a =
      if ∀ k ≤ vs.length, IsInt (a + (vs.take k).sum) then some (a + vs.sum) else none := by
  induction vs generalizing a with
  | nil => simp [ha]
  | cons v vs ih =>
    have hiff : (∀ k ≤ (v :: vs).length, IsInt (a + ((v :: vs).take k).sum)) ↔
        IsInt (a + v) ∧ ∀ k ≤ vs.length, IsInt (a + v + (vs.take k).sum) := by
      constructor
      · intro h
        refine ⟨by simpa using h 1 (by simp), fun k hk => ?_⟩
        have := h (k + 1) (by simpa using hk)
        rwa [List.take_succ_cons, List.sum_cons, ← add_assoc] at this
      · rintro ⟨-, h⟩ k hk
        cases k with
        | zero => simpa using ha
        | succ k =>
          rw [List.take_succ_cons, List.sum_cons, ← add_assoc]
          exact h k (by simpa using hk)
    rw [List.foldlM_cons, checkedInt]
    by_cases hv : IsInt (a + v)
    · rw [if_pos hv]
      change vs.foldlM _ (a + v) = _
      rw [ih hv, List.sum_cons, ← add_assoc]
      simp only [hiff, hv, true_and]
    · rw [if_neg hv, if_neg fun h => hv (hiff.1 h).1]
      rfl

/-- An addition of `int`, on bytes. -/
def addInt (x y : List UInt8) : Option (List UInt8) :=
  (checkedInt (bytesInt x + bytesInt y)).map intBytes

theorem addInt_intBytes {a : ℤ} (ha : IsInt a) (y : List UInt8) :
    addInt (intBytes a) y = (checkedInt (a + bytesInt y)).map intBytes := by
  rw [addInt, bytesInt_intBytes ha]

theorem isInt_of_checkedInt {v u : ℤ} (h : checkedInt v = some u) : IsInt u := by
  rw [checkedInt] at h
  split_ifs at h with hv
  cases h
  exact hv

/-- The plain sum is a fold on bytes. -/
theorem foldlM_addInt {a : ℤ} (ha : IsInt a) (xs : List (List UInt8)) :
    xs.foldlM addInt (intBytes a) =
      ((xs.map bytesInt).foldlM (fun res x => checkedInt (res + x)) a).map intBytes := by
  induction xs generalizing a with
  | nil => rfl
  | cons x xs ih =>
    rw [List.foldlM_cons, List.map_cons, List.foldlM_cons, addInt_intBytes ha]
    cases hv : checkedInt (a + bytesInt x) with
    | none => rfl
    | some v => exact ih (isInt_of_checkedInt hv)

/-- **On `int` the windows do not matter.** -/
theorem windowedSum_int (vs : List ℤ) (hne : vs ≠ []) (hvs : ∀ v ∈ vs, IsInt v) :
    windowedSum HEDB.bulkSize (plainSumBulk F .int) (vs.map intBytes) =
      if SumsFit vs then some (intBytes vs.sum) else none := by
  have hzero : IsInt 0 := by decide
  have hfix : ∀ v, IsInt v → addInt (intBytes 0) (intBytes v) = some (intBytes v) := by
    intro v hv
    rw [addInt_intBytes hzero, bytesInt_intBytes hv, zero_add, checkedInt, if_pos hv]
    rfl
  have hmap : (vs.map intBytes).map bytesInt = vs := by
    rw [List.map_map]
    refine (List.map_congr_left fun v hv => ?_).trans (List.map_id vs)
    exact bytesInt_intBytes (hvs v hv)
  have hsum : ∀ ws, plainSumBulk F .int ws = ws.foldlM addInt (intBytes 0) := fun ws =>
    (foldlM_addInt hzero ws).symm
  obtain ⟨v, vs', rfl⟩ := List.exists_cons_of_ne_nil hne
  rw [List.map_cons, windowedSum_eq_foldlM hsum ?_ (hfix v (hvs v List.mem_cons_self)),
    ← List.map_cons, foldlM_addInt hzero, hmap, foldlM_checkedInt hzero]
  · simp only [zero_add]
    by_cases hfit : SumsFit (v :: vs')
    · rw [if_pos hfit, if_pos (show ∀ k ≤ _, _ from hfit)]
      rfl
    · rw [if_neg hfit, if_neg (show ¬ ∀ k ≤ _, _ from hfit)]
      rfl
  · intro x y t ht
    obtain ⟨u, hu, rfl⟩ := Option.map_eq_some_iff.1 ht
    exact hfix u (isInt_of_checkedInt hu)

/-- The sum of a window on a target whose `int`s wrap around. -/
def wrappedSumBulk (F : FloatOps) (xs : List (List UInt8)) : Option (List UInt8) :=
  some (intBytes ((Target.wrapping F).int32SumBulk (xs.map bytesInt)))

theorem intBytes_wrap (v : ℤ) : intBytes ((Target.wrapping F).wrap v) = intBytes v := by
  have hwrap : (Target.wrapping F).wrap v = bytesInt (intBytes v) := (bytesInt_intBytes_eq v).symm
  rw [hwrap, intBytes_bytesInt (length_intBytes v)]

theorem wrappedSumBulk_intBytes (vs : List ℤ) :
    wrappedSumBulk F (vs.map intBytes) = some (intBytes vs.sum) := by
  have hbytes : bytesInt ∘ intBytes = (Target.wrapping F).wrap := funext bytesInt_intBytes_eq
  rw [wrappedSumBulk, List.map_map, hbytes, Target.int32SumBulk_wrapping, intBytes_wrap]

/-- On such a target the windows do not matter either, and every list has a sum. -/
theorem windowedSum_wrapping (vs : List ℤ) (hne : vs ≠ []) :
    windowedSum HEDB.bulkSize (wrappedSumBulk F) (vs.map intBytes) =
      some (intBytes ((Target.wrapping F).wrap vs.sum)) := by
  obtain ⟨t, ht⟩ : ∃ t, windowedSum HEDB.bulkSize (wrappedSumBulk F) (vs.map intBytes) = some t :=
    windowedSum_isSome (fun _ => rfl) (by simpa using hne)
  have hl : List.Forall₂ (fun v x => intBytes v = x) vs (vs.map intBytes) :=
    List.forall₂_map_right_iff.2 (List.forall₂_same.2 fun _ _ => rfl)
  rw [ht, intBytes_wrap, windowedSum_of_forall₂ ?_ hl ht]
  intro ms ws t _ hws hsum
  obtain rfl : ms.map intBytes = ws := by
    rwa [← List.forall₂_eq_eq_eq, List.forall₂_map_left_iff]
  rw [wrappedSumBulk_intBytes] at hsum
  exact Option.some.inj hsum

theorem exists_windowedSum_float {l : List (List UInt8)} (hl : l ≠ []) :
    ∃ t, windowedSum HEDB.bulkSize (plainSumBulk F .float) l = some t :=
  windowedSum_isSome (fun _ => rfl) hl

/-- **Every array is summed, each element once.** For `int` the sum is that of the plaintexts,
unless a running sum overflows. Where `int`s wrap around, the windows then give the bytes of the sum
modulo `2 ^ 32`. -/
theorem sumBulk_spec (g : Gcm) (F : FloatOps) :
    (∀ (array : List (Bytes Num.int.size)) (vs : List ℤ), array ≠ [] → (∀ v ∈ vs, IsInt v) →
      Encrypts g array (vs.map intBytes) → ∀ stack c,
        (SumsFit vs → ∃ sum c', encInt4SumBulk g F stack array c = some (.ok sum, c') ∧
          g.Decrypts sum.bytes (intBytes vs.sum) ∧ Feeds array c c') ∧
        (¬ SumsFit vs → encInt4SumBulk g F stack array c = none)) ∧
    (∀ (array : List (Bytes Num.float.size)) (fs : List UInt32), array ≠ [] →
      Encrypts g array (fs.map floatBytes) → ∀ stack c,
        ∃ sum c', encFloat4SumBulk g F stack array c = some (.ok sum, c') ∧ Feeds array c c') ∧
    ∀ vs : List ℤ, vs ≠ [] →
      windowedSum HEDB.bulkSize (wrappedSumBulk F) (vs.map intBytes) =
        some (intBytes ((Target.wrapping F).wrap vs.sum)) := by
  refine ⟨fun array vs hne hvs h stack c => ?_, fun array fs hne h stack c => ?_, fun vs hne => ?_⟩
  · have hne' : vs ≠ [] := by
      rintro rfl
      exact hne (List.forall₂_nil_right_iff.1 h)
    have hsum := sumBulk_eq (F := F) h stack c
    rw [windowedSum_int vs hne' hvs] at hsum
    constructor
    · intro hfit
      rw [if_pos hfit] at hsum
      exact hsum
    · intro hfit
      rw [if_neg hfit] at hsum
      exact hsum
  · have hne' : fs.map floatBytes ≠ [] := by
      intro hnil
      rw [hnil] at h
      exact hne (List.forall₂_nil_right_iff.1 h)
    obtain ⟨p, hp⟩ := exists_windowedSum_float (F := F) hne'
    have hsum := sumBulk_eq (F := F) h stack c
    rw [hp] at hsum
    obtain ⟨sum, c', hrun, -, hfeeds⟩ := hsum
    exact ⟨sum, c', hrun, hfeeds⟩
  · exact windowedSum_wrapping vs hne

/-- Every plaintext of four bytes has a ciphertext. -/
theorem exists_decrypts (g : Gcm) (n : Num) {p : List UInt8} (hp : p.length = 4) :
    ∃ item : Bytes n.size, g.Decrypts item.bytes p :=
  ⟨⟨g.gcmEncrypt ⟨List.replicate ivSize 0, rfl⟩ p, by
    rw [Gcm.length_gcmEncrypt, hp, Num.size_eq]
    rfl⟩, Gcm.decrypts_gcmEncrypt _ _⟩

theorem exists_encrypts (g : Gcm) (n : Num) (ps : List (List UInt8))
    (hps : ∀ p ∈ ps, p.length = 4) :
    ∃ array : List (Bytes n.size), Encrypts g array ps := by
  induction ps with
  | nil => exact ⟨[], .nil⟩
  | cons p ps ih =>
    obtain ⟨item, hitem⟩ := exists_decrypts g n (hps p List.mem_cons_self)
    obtain ⟨array, harray⟩ := ih fun q hq => hps q (List.mem_cons_of_mem _ hq)
    exact ⟨item :: array, .cons hitem harray⟩

/-- A client that has sent nothing, and a stack whose bytes are set. -/
def Client.zero : Client := ⟨OpsProcess.zero, []⟩

def staleStack (n : Num) : ℕ → Bytes n.size := fun _ => ⟨List.replicate n.size 0xFF, by simp⟩

/-- The array `{3, 4, 5}`. -/
theorem sumBulk_spec_twelve : ∃ array sum c', Encrypts Gcm.identity array ([3, 4, 5].map intBytes) ∧
    encInt4SumBulk Gcm.identity FloatOps.null (staleStack .int) array .zero = some (.ok sum, c') ∧
      Gcm.identity.Decrypts sum.bytes (intBytes 12) ∧ Feeds array .zero c' := by
  obtain ⟨array, h⟩ := exists_encrypts Gcm.identity .int ([3, 4, 5].map intBytes) (by decide)
  have hne : array ≠ [] := by
    rintro rfl
    cases h
  obtain ⟨sum, c', hsum⟩ := ((sumBulk_spec Gcm.identity FloatOps.null).1 array [3, 4, 5] hne
    (by decide) h (staleStack .int) .zero).1 (by decide)
  exact ⟨array, sum, c', h, hsum⟩

/-- The array `{2147483647, 1}`: the signed addition overflows. -/
theorem sumBulk_overflows : ∃ array, Encrypts Gcm.identity array ([2147483647, 1].map intBytes) ∧
    encInt4SumBulk Gcm.identity FloatOps.null (staleStack .int) array .zero = none := by
  obtain ⟨array, h⟩ := exists_encrypts Gcm.identity .int ([2147483647, 1].map intBytes) (by decide)
  have hsum := sumBulk_eq (F := FloatOps.null) h (staleStack .int) .zero
  rw [windowedSum_int _ (by decide) (by decide), if_neg (by decide)] at hsum
  exact ⟨array, h, hsum⟩

end Udf

end HEDB
