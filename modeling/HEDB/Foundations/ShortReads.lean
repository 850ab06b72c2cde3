import HEDB.Foundations.Files

/-!
# Short reads

A reader that ignores the return value of `fread` takes its bytes from two places: what the file
still has, and behind its end what the destinations held before. `delivered` collects the bytes that
a sequence of reads delivers into destinations at given places of the stack frame.

They go on as the file does, as far as it goes (`agrees_delivered`). Beyond its end they can be
anything: every continuation of the file is delivered with some contents of the stack
(`exists_delivered`).
-/

namespace HEDB

/-! ## Agreement as far as both go -/

/-- The two lists are the same as far as both go. -/
def Agrees (xs ys : List UInt8) : Prop := xs.take ys.length = ys.take xs.length

instance (xs ys : List UInt8) : Decidable (Agrees xs ys) := inferInstanceAs (Decidable (_ = _))

namespace Agrees

variable {xs ys a b : List UInt8}

@[simp] theorem nil_left : Agrees [] ys := by simp [Agrees]

@[simp] theorem nil_right : Agrees xs [] := by simp [Agrees]

theorem append_iff :
    Agrees xs (a ++ b) ↔ Agrees xs a ∧ Agrees (xs.drop a.length) b := by
  simp only [Agrees, List.length_append, List.length_drop, List.take_add, List.take_append]
  constructor
  · intro h
    exact List.append_inj h (by simp only [List.length_take]; omega)
  · rintro ⟨ha, hb⟩
    rw [ha, hb]

theorem weaken (h : Agrees xs ys) (hp : a <+: ys) : Agrees xs a := by
  obtain ⟨b, rfl⟩ := hp
  exact (append_iff.mp h).1

/-- Where both lists reach, they are the same. -/
theorem take_eq (h : Agrees xs ys) {n : ℕ} (hx : n ≤ xs.length) (hy : n ≤ ys.length) :
    ys.take n = xs.take n := by
  have htake := congrArg (List.take n) h
  rwa [List.take_take, List.take_take, Nat.min_eq_left hy, Nat.min_eq_left hx, eq_comm] at htake

theorem slice (h : Agrees xs ys) {i n : ℕ} (hx : i + n ≤ xs.length) (hy : i + n ≤ ys.length) :
    (ys.drop i).take n = (xs.drop i).take n := by
  rw [← Nat.add_sub_cancel_left i n, ← List.drop_take, ← List.drop_take, h.take_eq hx hy]

theorem drop (h : Agrees xs ys) (n : ℕ) : Agrees (xs.drop n) (ys.drop n) := by
  rcases Nat.le_total n ys.length with hn | hn
  · rw [← List.take_append_drop n ys, append_iff, List.length_take, Nat.min_eq_left hn] at h
    exact h.2
  · rw [List.drop_eq_nil_of_le hn]
    exact nil_right

/-- A list and its continuation. -/
theorem of_append (xs tl : List UInt8) : Agrees xs (xs ++ tl) := by
  rw [Agrees, List.take_of_length_le (by simp), List.take_left]

theorem of_take (xs : List UInt8) (n : ℕ) : Agrees xs (xs.take n) := by
  have h := of_append xs []
  rw [List.append_nil] at h
  exact h.weaken (List.take_prefix n xs)

end Agrees

/-- The bytes of a list, cut or filled with zeros to the length `n`. -/
def filled (xs : List UInt8) (n : ℕ) : List UInt8 := (xs ++ List.replicate n 0).take n

@[simp] theorem length_filled (xs : List UInt8) (n : ℕ) : (filled xs n).length = n := by
  simp only [filled, List.length_take, List.length_append, List.length_replicate]
  omega

theorem agrees_filled (xs : List UInt8) (n : ℕ) : Agrees xs (filled xs n) :=
  (Agrees.of_append xs _).weaken (List.take_prefix _ _)

/-- Beyond its end a list agrees with anything. -/
theorem agrees_filled_append {xs : List UInt8} {n : ℕ} (h : xs.length ≤ n) (tl : List UInt8) :
    Agrees xs (filled xs n ++ tl) := by
  rw [Agrees.append_iff, length_filled, List.drop_eq_nil_of_le h]
  exact ⟨agrees_filled xs n, Agrees.nil_left⟩

/-! ## Reads into the stack frame -/

namespace Cursor

theorem rest_fread (c : Cursor) (dst : List UInt8) :
    (c.fread dst).2.rest = c.rest.drop dst.length := by
  simp only [fread, rest, advance, ← List.drop_drop, List.length_take]
  rcases Nat.le_total dst.length (c.data.drop c.pos).length with h | h
  · rw [Nat.min_eq_left h]
  · rw [Nat.min_eq_right h, List.drop_length, List.drop_eq_nil_of_le h]

/-- A read that the file can serve. -/
theorem fread_of_le {c : Cursor} {dst : List UInt8} (h : dst.length ≤ c.rest.length) :
    c.fread dst = (c.rest.take dst.length, c.advance dst.length) := by
  simp only [fread, List.length_take, Nat.min_eq_left h, List.drop_length, List.append_nil]

theorem agrees_fread (c : Cursor) (dst : List UInt8) : Agrees c.rest (c.fread dst).1 := by
  rw [Agrees, length_fread]
  rcases Nat.le_total dst.length c.rest.length with h | h
  · rw [fread_of_le h, List.take_take, Nat.min_eq_right h]
  · rw [List.take_of_length_le h]
    simp only [fread, List.take_of_length_le h, List.take_left]

/-- The bytes of a read, one by one. -/
theorem getElem?_fread (c : Cursor) {dst : List UInt8} {i : ℕ} (h : i < dst.length) :
    (c.fread dst).1[i]? = if i < c.rest.length then c.rest[i]? else dst[i]? := by
  simp only [fread, List.getElem?_append, List.length_take, List.getElem?_drop]
  by_cases hi : i < c.rest.length
  · rw [if_pos (by omega), if_pos hi, List.getElem?_take_of_lt h]
  · rw [if_neg (by omega), if_neg hi]
    congr 1
    omega

/-- A destination that goes on as the file does keeps its bytes. -/
theorem fread_of_agrees {c : Cursor} {dst : List UInt8} (h : Agrees c.rest dst) :
    (c.fread dst).1 = dst := by
  rw [Agrees] at h
  simp only [fread, h, List.length_take]
  rcases Nat.le_total c.rest.length dst.length with hl | hl
  · rw [Nat.min_eq_left hl, List.take_append_drop]
  · rw [Nat.min_eq_right hl, List.take_of_length_le hl, List.drop_length, List.append_nil]

end Cursor

/-- The bytes that reads into the destinations `cs`, given by offset and size, deliver. -/
def delivered (frame : Mem) : Cursor → List (ℕ × ℕ) → List UInt8
  | _, [] => []
  | c, (o, n) :: cs =>
    (c.fread (frame.read o n)).1 ++ delivered frame (c.fread (frame.read o n)).2 cs

/-- The destinations with the pieces of `bs` that they receive. -/
def cut : List UInt8 → List (ℕ × ℕ) → List (ℕ × List UInt8)
  | _, [] => []
  | bs, (o, n) :: cs => (o, bs.take n) :: cut (bs.drop n) cs

section Deliver

variable {frame : Mem} {c : Cursor} {cs : List (ℕ × ℕ)} {bs : List UInt8}

theorem length_delivered (frame : Mem) (c : Cursor) (cs : List (ℕ × ℕ)) :
    (delivered frame c cs).length = (cs.map Prod.snd).sum := by
  induction cs generalizing c with
  | nil => rfl
  | cons v cs ih =>
    simp only [delivered, List.length_append, Cursor.length_fread, Mem.length_read, ih,
      List.map_cons, List.sum_cons]

theorem delivered_append (frame : Mem) (c : Cursor) (cs cs' : List (ℕ × ℕ)) :
    ∃ tl, delivered frame c (cs ++ cs') = delivered frame c cs ++ tl := by
  induction cs generalizing c with
  | nil => exact ⟨_, rfl⟩
  | cons v cs ih =>
    obtain ⟨tl, htl⟩ := ih (c.fread (frame.read v.1 v.2)).2
    exact ⟨tl, by rw [List.cons_append, delivered, htl, delivered, List.append_assoc]⟩

/-- **What the reads deliver goes on as the file does.** -/
theorem agrees_delivered (frame : Mem) (c : Cursor) (cs : List (ℕ × ℕ)) :
    Agrees c.rest (delivered frame c cs) := by
  induction cs generalizing c with
  | nil => exact Agrees.nil_right
  | cons v cs ih =>
    rw [delivered, Agrees.append_iff, Cursor.length_fread, ← Cursor.rest_fread]
    exact ⟨c.agrees_fread _, ih _⟩

theorem delivered_of_holds (hframe : frame.Holds (cut bs cs))
    (hlen : bs.length = (cs.map Prod.snd).sum) (h : Agrees c.rest bs) :
    delivered frame c cs = bs := by
  induction cs generalizing c bs with
  | nil => exact (List.length_eq_zero_iff.mp hlen).symm
  | cons v cs ih =>
    obtain ⟨o, n⟩ := v
    rw [List.map_cons, List.sum_cons] at hlen
    have htake : (bs.take n).length = n := by
      rw [List.length_take]
      omega
    have hread : frame.read o n = bs.take n := by
      have := hframe (o, bs.take n) List.mem_cons_self
      rwa [htake] at this
    rw [← List.take_append_drop n bs, Agrees.append_iff, htake] at h
    rw [delivered, hread, Cursor.fread_of_agrees h.1]
    rw [ih (fun w hw => hframe w (List.mem_cons_of_mem _ hw)) (by rw [List.length_drop]; omega)
      (by rw [Cursor.rest_fread, htake]; exact h.2), List.take_append_drop]

theorem le_of_mem_cut {w : ℕ × List UInt8} (hw : w ∈ cut bs cs) :
    ∃ v ∈ cs, w.1 = v.1 ∧ w.2.length ≤ v.2 := by
  induction cs generalizing bs with
  | nil => cases hw
  | cons v cs ih =>
    rcases List.mem_cons.mp hw with rfl | hw
    · exact ⟨v, List.mem_cons_self, rfl, by rw [List.length_take]; omega⟩
    · obtain ⟨u, hu, huw⟩ := ih hw
      exact ⟨u, List.mem_cons_of_mem _ hu, huw⟩

theorem pairwise_cut (hcs : cs.Pairwise fun v w => v.1 + v.2 ≤ w.1) :
    (cut bs cs).Pairwise Mem.Apart := by
  induction cs generalizing bs with
  | nil => exact .nil
  | cons v cs ih =>
    rw [List.pairwise_cons] at hcs
    refine .cons (fun w hw => .inl ?_) (ih hcs.2)
    obtain ⟨u, hu, hoff, -⟩ := le_of_mem_cut hw
    have hle := hcs.1 u hu
    rw [hoff, List.length_take]
    omega

/-- **Every continuation of the file is delivered with some contents of the stack.** -/
theorem exists_delivered (hcs : cs.Pairwise fun v w => v.1 + v.2 ≤ w.1)
    (hlen : bs.length = (cs.map Prod.snd).sum) (h : Agrees c.rest bs) :
    ∃ frame, delivered frame c cs = bs :=
  ⟨Mem.zero.writeAll (cut bs cs),
    delivered_of_holds (Mem.zero.holds_writeAll (pairwise_cut hcs)) hlen h⟩

end Deliver

end HEDB
