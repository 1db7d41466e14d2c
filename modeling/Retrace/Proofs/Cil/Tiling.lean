import Mathlib.Data.List.Chain
import Retrace.Proofs.Cil.Encoding

/-!
# Instructions tile their method body

Reading a method body splits its bytes into instructions, one behind the other (`LaidOut`), and it
succeeds on no other bytes (`boundariesFrom_eq_ok_iff`). What holds of the boundaries is read off that
split: they follow on one another from the first byte to the last one, and each names the opcode that
is at its offset (`boundaries_tile`).

Proofs about a body go along its instructions (`bodyInduction`), whatever their operands are. A
miscounted operand would put everything behind it in the wrong place; that it is not miscounted is
settled for single instructions, by `instruction_of_encodes`.
-/

namespace Retrace.Cil

variable {lead opcode : UInt8} {front back bytes code : List UInt8} {start pos : Nat}
  {bs later : List Boundary} {b : Boundary} {e : DecodeError}

/-! ## The loop over the instructions -/

/-- To prove something of all bytes, prove it of bytes that begin with no instruction, and of an
instruction with any bytes behind it that satisfy it. -/
@[elab_as_elim]
theorem bodyInduction {motive : List UInt8 → Prop} (nil : motive [])
    (unreadable : ∀ bytes e, bytes ≠ [] → Unreadable bytes e → motive bytes)
    (instruction : ∀ lead opcode front back, Encodes lead opcode front → motive back →
      motive (front ++ back)) (bytes : List UInt8) : motive bytes := by
  induction hlength : bytes.length using Nat.strong_induction_on generalizing bytes with
  | _ n ih =>
    by_cases hbytes : bytes = []
    · subst hbytes
      exact nil
    · rcases encodes_or_unreadable bytes with ⟨lead, opcode, front, back, rfl, hfront⟩ | ⟨e, hreason⟩
      · apply instruction lead opcode front back hfront
        have hpos : 0 < front.length := List.length_pos_iff.2 hfront.ne_nil
        rw [List.length_append] at hlength
        exact ih back.length (by omega) back rfl
      · exact unreadable bytes e hbytes hreason

/-- Where a body ends, there are no more instructions. -/
theorem boundariesFrom_nil (pos : Nat) : boundariesFrom ⟨pos, []⟩ = .ok [] := by
  rw [boundariesFrom]

/-- An instruction that is read stands in front of those behind it. -/
theorem boundariesFrom_of_ok {c c' : Cursor} (hrest : c.rest ≠ []) (h : instruction c = .ok b c') :
    boundariesFrom c = (boundariesFrom c').map (b :: ·) := by
  obtain ⟨first, rest, hrest⟩ := List.exists_cons_of_ne_nil hrest
  rw [boundariesFrom, hrest]
  dsimp only
  split
  · next herror => cases h.symm.trans herror
  · next hok =>
    cases h.symm.trans hok
    rfl

/-- An instruction that cannot be read fails the whole walk. -/
theorem boundariesFrom_of_error {c c' : Cursor} (hrest : c.rest ≠ [])
    (h : instruction c = .error e c') : boundariesFrom c = .error e := by
  obtain ⟨first, rest, hrest⟩ := List.exists_cons_of_ne_nil hrest
  rw [boundariesFrom, hrest]
  dsimp only
  split
  · next herror =>
    cases h.symm.trans herror
    rfl
  · next hok => cases h.symm.trans hok

/-- So do bytes that no instruction begins with, wherever they are. -/
theorem boundariesFrom_of_unreadable (h : Unreadable bytes e) (hbytes : bytes ≠ []) (pos : Nat) :
    boundariesFrom ⟨pos, bytes⟩ = .error e := by
  obtain ⟨c, hinstruction⟩ := instruction_of_unreadable h pos
  exact boundariesFrom_of_error hbytes hinstruction

/-- An instruction has its boundary where it stands, in front of those behind it. -/
theorem boundariesFrom_of_encodes (h : Encodes lead opcode front)
    (hplaced : pos < wordLimit ∧ front.length < wordLimit) (back : List UInt8) :
    boundariesFrom ⟨pos, front ++ back⟩ =
      (boundariesFrom ⟨pos + front.length, back⟩).map (⟨pos, front.length, lead, opcode⟩ :: ·) := by
  have hinstruction := instruction_of_encodes h pos back
  rw [placed, if_pos hplaced] at hinstruction
  exact boundariesFrom_of_ok (List.append_ne_nil_of_left_ne_nil h.ne_nil back) hinstruction

/-- An instruction that 32 bits cannot number ends the loop. -/
theorem boundariesFrom_of_not_placed (h : Encodes lead opcode front)
    (hplaced : ¬ (pos < wordLimit ∧ front.length < wordLimit)) (back : List UInt8) :
    boundariesFrom ⟨pos, front ++ back⟩ = .error (.malformed .bodyTooLarge) := by
  have hinstruction := instruction_of_encodes h pos back
  rw [placed, if_neg hplaced] at hinstruction
  exact boundariesFrom_of_error (List.append_ne_nil_of_left_ne_nil h.ne_nil back) hinstruction

/-! ## Bytes as instructions one behind the other -/

/-- The bytes, of which the first one is at `start`, are instructions with these boundaries, one behind
the other. -/
inductive LaidOut : Nat → List UInt8 → List Boundary → Prop
  | nil {start : Nat} : LaidOut start [] []
  | cons {start : Nat} {lead opcode : UInt8} {front back : List UInt8} {later : List Boundary}
    (encodes : Encodes lead opcode front)
    (hplaced : start < wordLimit ∧ front.length < wordLimit)
    (rest : LaidOut (start + front.length) back later) :
    LaidOut start (front ++ back) (⟨start, front.length, lead, opcode⟩ :: later)

/-- A walk that succeeds has gone along instructions, one behind the other. -/
theorem laidOut_of_boundariesFrom (h : boundariesFrom ⟨start, bytes⟩ = .ok bs) :
    LaidOut start bytes bs := by
  induction bytes using bodyInduction generalizing start bs with
  | nil =>
    rw [boundariesFrom_nil] at h
    cases h
    exact .nil
  | unreadable bytes e hbytes hreason =>
    rw [boundariesFrom_of_unreadable hreason hbytes] at h
    cases h
  | instruction lead opcode front back hfront ih =>
    by_cases hplaced : start < wordLimit ∧ front.length < wordLimit
    · rw [boundariesFrom_of_encodes hfront hplaced] at h
      cases hback : boundariesFrom ⟨start + front.length, back⟩ with
      | error e =>
        rw [hback] at h
        cases h
      | ok later =>
        rw [hback] at h
        cases h
        exact .cons hfront hplaced (ih hback)
    · rw [boundariesFrom_of_not_placed hfront hplaced] at h
      cases h

/-- What is behind instructions is read as if they were not there, but for its place. -/
theorem LaidOut.boundariesFrom_append (h : LaidOut start code bs) (more : List UInt8) :
    boundariesFrom ⟨start, code ++ more⟩ =
      (boundariesFrom ⟨start + code.length, more⟩).map (bs ++ ·) := by
  induction h with
  | nil =>
    show boundariesFrom ⟨_, more⟩ = (boundariesFrom ⟨_, more⟩).map id
    cases boundariesFrom ⟨_, more⟩ with
    | error e => rfl
    | ok later => rfl
  | cons encodes hplaced rest ih =>
    rw [List.append_assoc, boundariesFrom_of_encodes encodes hplaced, ih, List.length_append,
      ← Nat.add_assoc]
    cases boundariesFrom ⟨_, more⟩ with
    | error e => rfl
    | ok later => rfl

/-- Reading succeeds on instructions one behind the other, and on nothing else. -/
theorem boundariesFrom_eq_ok_iff : boundariesFrom ⟨start, code⟩ = .ok bs ↔ LaidOut start code bs := by
  constructor
  · exact laidOut_of_boundariesFrom
  · intro h
    have happend := h.boundariesFrom_append []
    rw [List.append_nil, boundariesFrom_nil] at happend
    rw [happend]
    show Except.ok (bs ++ []) = _
    rw [List.append_nil]

/-- A body has boundaries if and only if it consists of instructions with these boundaries. -/
theorem boundaries_eq_ok_iff : boundaries code = .ok bs ↔ LaidOut 0 code bs :=
  boundariesFrom_eq_ok_iff

/-! ## Where the instructions are -/

/-- The first instruction is where the bytes begin. -/
theorem LaidOut.offset_of_head (h : LaidOut start code bs) (hb : b ∈ bs.head?) : b.offset = start := by
  cases h with
  | nil => cases hb
  | cons encodes hplaced rest =>
    cases hb
    rfl

/-- Each instruction begins where the one in front of it ends. -/
theorem LaidOut.isChain (h : LaidOut start code bs) :
    bs.IsChain fun b next => next.offset = b.offset + b.size := by
  induction h with
  | nil => exact .nil
  | cons encodes hplaced rest ih =>
    refine List.isChain_cons.2 ⟨?_, ih⟩
    intro next hnext
    exact rest.offset_of_head hnext

/-- The last instruction ends where the bytes end. -/
theorem LaidOut.end_of_getLast (h : LaidOut start code bs) (hb : b ∈ bs.getLast?) :
    b.offset + b.size = start + code.length := by
  induction h with
  | nil => cases hb
  | @cons start lead opcode front back later encodes hplaced rest ih =>
    rw [List.length_append, ← Nat.add_assoc]
    cases rest with
    | nil =>
      cases hb
      rfl
    | cons encodes' hplaced' rest' => exact ih hb

/-- No instruction is in front of the bytes. -/
theorem LaidOut.le_offset (h : LaidOut start code bs) (hb : b ∈ bs) : start ≤ b.offset := by
  induction h with
  | nil => cases hb
  | cons encodes hplaced rest ih =>
    rcases List.mem_cons.1 hb with rfl | hb
    · exact Nat.le_refl _
    · exact Nat.le_trans (Nat.le_add_right _ _) (ih hb)

/-- Later instructions have greater offsets. -/
theorem LaidOut.pairwise_offset (h : LaidOut start code bs) :
    bs.Pairwise fun b next => b.offset < next.offset := by
  induction h with
  | nil => exact .nil
  | @cons start lead opcode front back later encodes hplaced rest ih =>
    refine List.pairwise_cons.2 ⟨?_, ih⟩
    intro next hnext
    have hle := rest.le_offset hnext
    have hpos : 0 < front.length := List.length_pos_iff.2 encodes.ne_nil
    show start < next.offset
    omega

/-- The bytes of each instruction are in the body, at its place. -/
theorem LaidOut.exists_of_mem (h : LaidOut start code bs) (hb : b ∈ bs) :
    ∃ before bytes behind, code = before ++ (bytes ++ behind) ∧ b.offset = start + before.length ∧
      b.size = bytes.length ∧ Encodes b.lead b.opcode bytes := by
  induction h with
  | nil => cases hb
  | @cons start lead opcode front back later encodes hplaced rest ih =>
    rcases List.mem_cons.1 hb with rfl | hb
    · exact ⟨[], front, back, rfl, rfl, rfl, encodes⟩
    · obtain ⟨before, bytes, behind, rfl, hoffset, hsize, hbytes⟩ := ih hb
      refine ⟨front ++ before, bytes, behind, (List.append_assoc _ _ _).symm, ?_, hsize, hbytes⟩
      rw [hoffset, List.length_append, Nat.add_assoc]

/-! ## Boundaries of a body -/

/-- The boundaries follow on one another from the first byte of the body to the last one. -/
structure Tiles (code : List UInt8) (bs : List Boundary) : Prop where
  first : ∀ b ∈ bs.head?, b.offset = 0
  adjacent : bs.IsChain fun b next => next.offset = b.offset + b.size
  last : ∀ b ∈ bs.getLast?, b.offset + b.size = code.length
  covered : code ≠ [] → bs ≠ []

/-- The bytes at the offset of the boundary are its opcode: behind the extension byte or, if it has
none, on its own. -/
inductive Boundary.NamesOpcode (code : List UInt8) (b : Boundary) : Prop
  | oneByte (lead : b.lead = 0) (plain : b.opcode ≠ 0xFE)
    (opcode : code[b.offset]? = some b.opcode)
  | extended (lead : b.lead = 0xFE) (extension : code[b.offset]? = some 0xFE)
    (opcode : code[b.offset + 1]? = some b.opcode)

/-- Instructions that are laid out from the first byte on leave no byte of the body out. -/
theorem LaidOut.tiles (h : LaidOut 0 code bs) : Tiles code bs where
  first b hb := h.offset_of_head hb
  adjacent := h.isChain
  last b hb := (h.end_of_getLast hb).trans (Nat.zero_add code.length)
  covered hcode := by
    intro hbs
    subst hbs
    cases h
    exact hcode rfl

/-- Where the boundary of an instruction is, the body has its opcode. -/
theorem LaidOut.namesOpcode (h : LaidOut 0 code bs) (hb : b ∈ bs) : b.NamesOpcode code := by
  obtain ⟨before, bytes, behind, rfl, hoffset, -, hbytes⟩ := h.exists_of_mem hb
  obtain ⟨offset, size, lead, opcode⟩ := b
  rw [Nat.zero_add] at hoffset
  subst hoffset
  have hfirst : (before ++ (bytes ++ behind))[before.length]? = (bytes ++ behind)[0]? := by
    rw [List.getElem?_append_right (Nat.le_refl _), Nat.sub_self]
  have hsecond : (before ++ (bytes ++ behind))[before.length + 1]? = (bytes ++ behind)[1]? := by
    rw [List.getElem?_append_right (Nat.le_add_right _ _), Nat.add_sub_cancel_left]
  cases hbytes with
  | oneByte listed fits => exact .oneByte rfl (ne_extension_of_listed listed) hfirst
  | extended listed fits => exact .extended rfl hfirst hsecond

/-- Whatever bytes a method body consists of, the boundaries that are read from it tile it. None of its
instructions is empty; each names the opcode that is at its offset and extends over as many bytes as
this opcode asks for. So the offsets of the instructions strictly increase. -/
theorem boundaries_tile (h : boundaries code = .ok bs) :
    Tiles code bs ∧
    (∀ b ∈ bs, 1 ≤ b.size ∧ b.NamesOpcode code ∧
      Encodes b.lead b.opcode ((code.drop b.offset).take b.size)) ∧
    instructionOffsets code = .ok (bs.map (·.offset)) ∧
    (bs.map (·.offset)).Pairwise (· < ·) := by
  have hlaid : LaidOut 0 code bs := boundaries_eq_ok_iff.1 h
  refine ⟨hlaid.tiles, ?_, ?_, ?_⟩
  · intro b hb
    have hopcode : b.NamesOpcode code := hlaid.namesOpcode hb
    obtain ⟨before, bytes, behind, rfl, hoffset, hsize, hbytes⟩ := hlaid.exists_of_mem hb
    refine ⟨?_, hopcode, ?_⟩
    · rw [hsize]
      exact List.length_pos_iff.2 hbytes.ne_nil
    · rw [hoffset, Nat.zero_add, hsize, List.drop_left, List.take_left]
      exact hbytes
  · rw [instructionOffsets, h]
    rfl
  · exact List.pairwise_map.2 hlaid.pairwise_offset

/-- A body with a jump table of two targets and a two-byte opcode. -/
theorem boundaries_tile_of_jumpTable :
    let code : List UInt8 := [0x02, 0x45, 0x02, 0x00, 0x00, 0x00, 0x01, 0x00, 0x00, 0x00, 0xFE, 0x00,
      0x00, 0x00, 0xFE, 0x01, 0x2A]
    let bs : List Boundary := [⟨0, 1, 0, 0x02⟩, ⟨1, 13, 0, 0x45⟩, ⟨14, 2, 0xFE, 0x01⟩, ⟨16, 1, 0, 0x2A⟩]
    boundaries code = .ok bs ∧ Tiles code bs ∧ instructionOffsets code = .ok [0, 1, 14, 16] := by
  intro code bs
  have hcode : boundaries code = .ok bs := by cbv
  obtain ⟨htiles, -, hoffsets, -⟩ := boundaries_tile hcode
  exact ⟨hcode, htiles, hoffsets⟩

end Retrace.Cil
