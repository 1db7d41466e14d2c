import Retrace.Proofs.Cil.Tiling

/-!
# Method bodies that are put together or cut apart

Instructions are read one at a time, and what is read of one depends on nothing but its bytes and its
place. So a body behind another one is read as it is on its own, with its offsets moved
(`boundariesFrom_shift`), and a body that is cut off is read up to the cut, if the cut is between two
instructions (`LaidOut.take`). Any other cut leaves the beginning of an instruction behind, whose bytes
run out before anything in it could look malformed (`LaidOut.boundariesFrom_take_of_inside`).

`boundaries_append_take` states both.
-/

namespace Retrace.Cil

variable {front back bytes code : List UInt8} {start pos k : Nat} {lead opcode : UInt8}
  {bs later : List Boundary} {b : Boundary}

/-! ## Bodies in another place -/

/-- The boundary with `n` more bytes in front. -/
def Boundary.shift (n : Nat) (b : Boundary) : Boundary := { b with offset := b.offset + n }

/-- Where bytes are has no influence on what is read of them, as long as 32 bits can number them. -/
theorem boundariesFrom_shift {n : Nat} (h : pos + n + bytes.length < wordLimit) :
    boundariesFrom ⟨pos + n, bytes⟩ =
      (boundariesFrom ⟨pos, bytes⟩).map (List.map (Boundary.shift n)) := by
  induction bytes using bodyInduction generalizing pos with
  | nil =>
    rw [boundariesFrom_nil, boundariesFrom_nil]
    rfl
  | unreadable bytes e hbytes hreason =>
    rw [boundariesFrom_of_unreadable hreason hbytes, boundariesFrom_of_unreadable hreason hbytes]
    rfl
  | instruction lead opcode front back hfront ih =>
    rw [List.length_append] at h
    have hplaced : pos < wordLimit ∧ front.length < wordLimit := by omega
    have hmoved : pos + n < wordLimit ∧ front.length < wordLimit := by omega
    have hback : pos + n + front.length = pos + front.length + n := by omega
    rw [boundariesFrom_of_encodes hfront hplaced, boundariesFrom_of_encodes hfront hmoved, hback,
      ih (by omega)]
    cases boundariesFrom ⟨pos + front.length, back⟩ with
    | error e => rfl
    | ok later => rfl

/-! ## Bodies that are cut off -/

/-- A cut inside of the first instruction leaves bytes that run out. -/
theorem boundariesFrom_of_cut (h : Encodes lead opcode front) (hpos : 0 < k)
    (hk : k < front.length) (start : Nat) :
    boundariesFrom ⟨start, front.take k⟩ = .error .outOfBounds := by
  have hmissing : front.drop k ≠ [] := by
    apply List.ne_nil_of_length_pos
    rw [List.length_drop]
    omega
  have hpresent : front.take k ≠ [] := by
    apply List.ne_nil_of_length_pos
    rw [List.length_take]
    omega
  have hwhole : Encodes lead opcode (front.take k ++ front.drop k) := by
    rwa [List.take_append_drop]
  exact boundariesFrom_of_unreadable (.cut hmissing hwhole) hpresent start

/-- Instructions that are laid out from an offset on have none in front of it. -/
theorem LaidOut.filter_eq_nil (h : LaidOut start code bs) : bs.filter (·.offset < start) = [] := by
  apply List.filter_eq_nil_iff.2
  intro b hb
  rw [decide_eq_true_eq]
  exact Nat.not_lt.2 (h.le_offset hb)

/-- In front of a cut at an instruction, or at the end, are the instructions before it. -/
theorem LaidOut.take (h : LaidOut start code bs)
    (hk : start + k ∈ bs.map (·.offset) ∨ k = code.length) :
    LaidOut start (code.take k) (bs.filter (·.offset < start + k)) := by
  induction h generalizing k with
  | nil =>
    rw [List.take_nil]
    exact .nil
  | @cons start lead opcode front back later encodes hplaced rest ih =>
    rw [List.map_cons, List.mem_cons, List.length_append, or_assoc] at hk
    rcases hk with hstart | hbehind
    · have hzero : k = 0 := Nat.add_eq_left.1 hstart
      rw [hzero, List.take_zero, Nat.add_zero, (LaidOut.cons encodes hplaced rest).filter_eq_nil]
      exact .nil
    · -- the first instruction is in front of the cut as a whole
      have hfront : front.length ≤ k := by
        rcases hbehind with hlater | hend
        · obtain ⟨b, hb, hoffset⟩ := List.mem_map.1 hlater
          have hle := rest.le_offset hb
          omega
        · omega
      obtain ⟨j, rfl⟩ := Nat.exists_eq_add_of_le hfront
      have hpos : 0 < front.length := List.length_pos_iff.2 encodes.ne_nil
      have hfirst : decide (start < start + front.length + j) = true := decide_eq_true (by omega)
      rw [← Nat.add_assoc, Nat.add_left_cancel_iff] at hbehind
      rw [List.take_length_add_append, ← Nat.add_assoc, List.filter_cons, if_pos hfirst]
      exact .cons encodes hplaced (ih hbehind)

/-- At any other cut the bytes run out. -/
theorem LaidOut.boundariesFrom_take_of_inside (h : LaidOut start code bs) (hk : k ≤ code.length)
    (hinside : ¬ (start + k ∈ bs.map (·.offset) ∨ k = code.length)) :
    boundariesFrom ⟨start, code.take k⟩ = .error .outOfBounds := by
  induction h generalizing k with
  | nil => exact absurd (Or.inr (Nat.le_zero.1 hk)) hinside
  | @cons start lead opcode front back later encodes hplaced rest ih =>
    rw [List.map_cons, List.mem_cons, List.length_append, or_assoc, not_or] at hinside
    obtain ⟨hstart, hbehind⟩ := hinside
    rw [List.length_append] at hk
    by_cases hfront : front.length ≤ k
    · obtain ⟨j, rfl⟩ := Nat.exists_eq_add_of_le hfront
      rw [← Nat.add_assoc, Nat.add_left_cancel_iff] at hbehind
      rw [List.take_length_add_append, boundariesFrom_of_encodes encodes hplaced,
        ih (Nat.le_of_add_le_add_left hk) hbehind]
      rfl
    · have hpos : 0 < k := Nat.pos_of_ne_zero fun hzero => hstart (hzero ▸ Nat.add_zero start)
      have hshort : k < front.length := Nat.lt_of_not_le hfront
      rw [List.take_append_of_le_length (Nat.le_of_lt hshort)]
      exact boundariesFrom_of_cut encodes hpos hshort start

/-! ## Both -/

/-- What is behind a body that can be read is read as it is on its own, behind the boundaries of that
body and with its offsets moved; if it cannot be read, the whole fails with the same error. And of the
body itself, the first `k` bytes can be read exactly if an instruction starts at `k` or the body ends
there; otherwise they run out. -/
theorem boundaries_append_take (h : boundaries code = .ok bs) :
    (∀ more : List UInt8, code.length + more.length < wordLimit →
      boundaries (code ++ more) =
        (boundaries more).map fun later => bs ++ later.map (Boundary.shift code.length)) ∧
    (∀ k ≤ code.length, boundaries (code.take k) =
      if k ∈ bs.map (·.offset) ∨ k = code.length then .ok (bs.filter (·.offset < k))
      else .error .outOfBounds) := by
  have hlaid : LaidOut 0 code bs := boundaries_eq_ok_iff.1 h
  constructor
  · intro more hsmall
    have hshift : boundariesFrom ⟨0 + code.length, more⟩ =
        (boundariesFrom ⟨0, more⟩).map (List.map (Boundary.shift code.length)) :=
      boundariesFrom_shift (by omega)
    show boundariesFrom ⟨0, code ++ more⟩ = (boundariesFrom ⟨0, more⟩).map _
    rw [hlaid.boundariesFrom_append, hshift]
    cases boundariesFrom ⟨0, more⟩ with
    | error e => rfl
    | ok later => rfl
  · intro k hk
    have htake := hlaid.take (k := k)
    have hcut := hlaid.boundariesFrom_take_of_inside hk
    rw [Nat.zero_add] at htake hcut
    split
    · next hat => exact boundaries_eq_ok_iff.2 (htake hat)
    · next hinside => exact hcut hinside

/-- A body with a jump table. Behind it a reserved opcode makes the whole malformed, and a call is
moved to its end. Cut behind the jump table, the body can be read; cut in the middle of the table, its
bytes run out. -/
theorem boundaries_append_take_of_jumpTable :
    let code : List UInt8 := [0x02, 0x45, 0x01, 0x00, 0x00, 0x00, 0x01, 0x00, 0x00, 0x00, 0x2A]
    let call : List UInt8 := [0x28, 0x01, 0x00, 0x00, 0x0A]
    boundaries code = .ok [⟨0, 1, 0, 0x02⟩, ⟨1, 9, 0, 0x45⟩, ⟨10, 1, 0, 0x2A⟩] ∧
      boundaries (code ++ [0xFE, 0x08]) = .error (.malformed (.extendedOpcode 0x08)) ∧
      boundaries (code ++ call) =
        .ok [⟨0, 1, 0, 0x02⟩, ⟨1, 9, 0, 0x45⟩, ⟨10, 1, 0, 0x2A⟩, ⟨11, 5, 0, 0x28⟩] ∧
      boundaries (code.take 10) = .ok [⟨0, 1, 0, 0x02⟩, ⟨1, 9, 0, 0x45⟩] ∧
      boundaries (code.take 8) = .error .outOfBounds := by
  intro code call
  have hcode : boundaries code = .ok [⟨0, 1, 0, 0x02⟩, ⟨1, 9, 0, 0x45⟩, ⟨10, 1, 0, 0x2A⟩] := by cbv
  have hreserved : boundaries [0xFE, 0x08] = .error (.malformed (.extendedOpcode 0x08)) := by cbv
  have hcall : boundaries call = .ok [⟨0, 5, 0, 0x28⟩] := by cbv
  obtain ⟨hbehind, hcut⟩ := boundaries_append_take hcode
  refine ⟨hcode, ?_, ?_, ?_, ?_⟩
  · rw [hbehind _ (by decide), hreserved]
    rfl
  · rw [hbehind _ (by decide), hcall]
    rfl
  · rw [hcut 10 (by decide)]
    rfl
  · rw [hcut 8 (by decide)]
    rfl

end Retrace.Cil
