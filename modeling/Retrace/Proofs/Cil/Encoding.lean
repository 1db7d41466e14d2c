import Retrace.Cil.Boundary

/-!
# The bytes of instructions

An instruction is an opcode of one or two bytes and an operand. How long the operand is follows from
the opcode or, for a jump table, from the four bytes that come first (`Encodes`).

Bytes begin with an instruction, or there is a reason why they do not (`Unreadable`): their opcode is
reserved, or they are themselves the beginning of an instruction that is cut off
(`encodes_or_unreadable`). Reading an instruction tells these cases apart, wherever in a method body the
bytes are:

* `instruction_of_encodes` : it reads exactly the bytes of the instruction;
* `instruction_of_unreadable` : it fails with this very reason.
-/

namespace Retrace

/-! ## Reads of a given number of bytes -/

namespace Decoder

variable {n : Nat} {front bytes : List UInt8}

/-- A byte is read if there is one. -/
theorem byte_cons (pos : Nat) (first : UInt8) (rest : List UInt8) :
    byte ⟨pos, first :: rest⟩ = .ok first ⟨pos + 1, rest⟩ := rfl

/-- Bytes that are there are skipped, whatever follows them. -/
theorem skip_append (h : front.length = n) (pos : Nat) (back : List UInt8) :
    skip n ⟨pos, front ++ back⟩ = .ok () ⟨pos + n, back⟩ := by
  subst h
  simp [skip_eq, Cursor.remaining, Cursor.advance]

/-- Fewer bytes than are to be skipped are too few. -/
theorem skip_of_lt (h : bytes.length < n) (pos : Nat) :
    skip n ⟨pos, bytes⟩ = .error .outOfBounds ⟨pos, bytes⟩ := by
  simp [skip_eq, Cursor.remaining, Nat.not_le.2 h]

/-- A number is read from the bytes that are there, whatever follows them. -/
theorem unsigned_append (h : front.length = n) (pos : Nat) (back : List UInt8) :
    unsigned n ⟨pos, front ++ back⟩ = .ok (ofLittleEndian front) ⟨pos + n, back⟩ := by
  subst h
  simp [unsigned_eq, Cursor.remaining, Cursor.advance]

/-- Fewer bytes than a number takes are too few. -/
theorem unsigned_of_lt (h : bytes.length < n) (pos : Nat) :
    unsigned n ⟨pos, bytes⟩ = .error .outOfBounds ⟨pos, bytes⟩ := by
  simp [unsigned_eq, Cursor.remaining, Nat.not_le.2 h]

end Decoder

namespace Cil

open Decoder

variable {layout : OperandLayout} {operand front bytes missing : List UInt8} {lead opcode : UInt8}
  {e : DecodeError}

/-! ## Operands -/

/-- The bytes are an operand of this layout. -/
inductive OperandLayout.Fits : OperandLayout → List UInt8 → Prop
  | bytes (operand : List UInt8) : Fits (.bytes operand.length) operand
  | jumpTable {count targets : List UInt8} (hcount : count.length = 4)
    (htargets : targets.length = ofLittleEndian count * 4) : Fits .jumpTable (count ++ targets)

/-- An operand that fits its layout is stepped over, and nothing of what follows it. -/
theorem skipOperand_of_fits (h : layout.Fits operand) (pos : Nat) (back : List UInt8) :
    skipOperand layout ⟨pos, operand ++ back⟩ = .ok () ⟨pos + operand.length, back⟩ := by
  cases h with
  | bytes => exact skip_append rfl pos back
  | @jumpTable count targets hcount htargets =>
    have hread := unsigned_append hcount pos (targets ++ back)
    have hskip := skip_append htargets (pos + 4) back
    rw [List.append_assoc, List.length_append, hcount, htargets, ← Nat.add_assoc]
    simp only [skipOperand, Bind.bind, EStateM.bind, hread, hskip]

/-- An operand that is cut off is noticed. -/
theorem skipOperand_of_cut (h : layout.Fits (bytes ++ missing)) (hmissing : missing ≠ []) (pos : Nat) :
    ∃ c, skipOperand layout ⟨pos, bytes⟩ = .error .outOfBounds c := by
  have hshort : 0 < missing.length := List.length_pos_iff.2 hmissing
  generalize hwhole : bytes ++ missing = operand at h
  cases h with
  | bytes =>
    refine ⟨_, skip_of_lt ?_ pos⟩
    rw [← hwhole, List.length_append]
    omega
  | @jumpTable count targets hcount htargets =>
    by_cases hcut : bytes.length < 4
    · refine ⟨⟨pos, bytes⟩, ?_⟩
      simp only [skipOperand, Bind.bind, EStateM.bind, unsigned_of_lt hcut]
    · -- the count is there, and some of the targets are missing
      have hpresent : count <+: bytes :=
        List.prefix_of_prefix_length_le ⟨targets, rfl⟩ ⟨missing, hwhole⟩ (by omega)
      obtain ⟨present, rfl⟩ := hpresent
      rw [List.append_assoc] at hwhole
      have htotal : present.length < ofLittleEndian count * 4 := by
        rw [← htargets, ← List.append_cancel_left hwhole, List.length_append]
        omega
      refine ⟨⟨pos + 4, present⟩, ?_⟩
      simp only [skipOperand, Bind.bind, EStateM.bind, unsigned_append hcount, skip_of_lt htotal]

/-- There are `n` bytes in front, or some are missing. -/
theorem split_or_cut (n : Nat) (bytes : List UInt8) :
    (∃ front back, bytes = front ++ back ∧ front.length = n) ∨
      ∃ missing, missing ≠ [] ∧ (bytes ++ missing).length = n := by
  by_cases h : n ≤ bytes.length
  · left
    exact ⟨bytes.take n, bytes.drop n, (List.take_append_drop n bytes).symm, List.length_take_of_le h⟩
  · right
    have hlength : (bytes ++ List.replicate (n - bytes.length) 0).length = n := by
      rw [List.length_append, List.length_replicate]
      omega
    refine ⟨List.replicate (n - bytes.length) 0, ?_, hlength⟩
    apply List.ne_nil_of_length_pos
    rw [List.length_replicate]
    omega

/-- Bytes begin with an operand of the layout, or they are the beginning of one. -/
theorem fits_or_cut (layout : OperandLayout) (bytes : List UInt8) :
    (∃ operand back, bytes = operand ++ back ∧ layout.Fits operand) ∨
      ∃ missing, missing ≠ [] ∧ layout.Fits (bytes ++ missing) := by
  cases layout with
  | bytes n =>
    rcases split_or_cut n bytes with ⟨front, back, rfl, rfl⟩ | ⟨missing, hmissing, rfl⟩
    · exact Or.inl ⟨front, back, rfl, .bytes front⟩
    · exact Or.inr ⟨missing, hmissing, .bytes (bytes ++ missing)⟩
  | jumpTable =>
    rcases split_or_cut 4 bytes with ⟨count, rest, rfl, hcount⟩ | ⟨missing, hmissing, hcount⟩
    · rcases split_or_cut (ofLittleEndian count * 4) rest with
        ⟨targets, back, rfl, htargets⟩ | ⟨missing, hmissing, htargets⟩
      · left
        exact ⟨count ++ targets, back, (List.append_assoc _ _ _).symm, .jumpTable hcount htargets⟩
      · right
        refine ⟨missing, hmissing, ?_⟩
        rw [List.append_assoc]
        exact .jumpTable hcount htargets
    · -- whatever the count turns out to be, no target is there
      right
      let targets : List UInt8 := List.replicate (ofLittleEndian (bytes ++ missing) * 4) 0
      refine ⟨missing ++ targets, List.append_ne_nil_of_left_ne_nil hmissing targets, ?_⟩
      rw [← List.append_assoc]
      exact .jumpTable hcount List.length_replicate

/-! ## Instructions -/

/-- The bytes are one instruction, with this extension byte (zero for none) and this opcode. -/
inductive Encodes : UInt8 → UInt8 → List UInt8 → Prop
  | oneByte {opcode : UInt8} {layout : OperandLayout} {operand : List UInt8}
    (listed : layoutIn oneByteTable opcode = some layout) (fits : layout.Fits operand) :
    Encodes 0 opcode (opcode :: operand)
  | extended {opcode : UInt8} {layout : OperandLayout} {operand : List UInt8}
    (listed : layoutIn extendedTable opcode = some layout) (fits : layout.Fits operand) :
    Encodes extension opcode (extension :: opcode :: operand)

/-- Why no instruction can be read at the start of the bytes. -/
inductive Unreadable : List UInt8 → DecodeError → Prop
  | opcode {first : UInt8} {rest : List UInt8} (plain : first ≠ extension)
    (reserved : layoutIn oneByteTable first = none) :
    Unreadable (first :: rest) (.malformed (.opcode first))
  | extendedOpcode {second : UInt8} {rest : List UInt8}
    (reserved : layoutIn extendedTable second = none) :
    Unreadable (extension :: second :: rest) (.malformed (.extendedOpcode second))
  | cut {lead opcode : UInt8} {bytes missing : List UInt8} (hmissing : missing ≠ [])
    (whole : Encodes lead opcode (bytes ++ missing)) : Unreadable bytes .outOfBounds

/-- No instruction is without bytes. -/
theorem Encodes.ne_nil (h : Encodes lead opcode bytes) : bytes ≠ [] := by
  cases h with
  | oneByte listed fits => exact List.cons_ne_nil _ _
  | extended listed fits => exact List.cons_ne_nil _ _

/-- The extension byte is no opcode of its own. -/
theorem ne_extension_of_listed (h : layoutIn oneByteTable opcode = some layout) :
    opcode ≠ extension := by
  rintro rfl
  cases h

/-- Bytes begin with an instruction, or there is a reason why they do not. -/
theorem encodes_or_unreadable (bytes : List UInt8) :
    (∃ lead opcode front back, bytes = front ++ back ∧ Encodes lead opcode front) ∨
      ∃ e, Unreadable bytes e := by
  cases bytes with
  | nil =>
    -- nothing is the beginning of any instruction, such as the one of a single zero byte
    right
    have hnop : Encodes 0 0 ([] ++ [0]) := .oneByte rfl (.bytes [])
    exact ⟨_, .cut (List.cons_ne_nil 0 []) hnop⟩
  | cons first rest =>
    by_cases hfirst : first = extension
    · subst hfirst
      cases rest with
      | nil =>
        right
        have hlist : Encodes extension 0 ([extension] ++ [0]) := .extended rfl (.bytes [])
        exact ⟨_, .cut (List.cons_ne_nil 0 []) hlist⟩
      | cons second rest =>
        cases hlayout : layoutIn extendedTable second with
        | none => exact Or.inr ⟨_, .extendedOpcode hlayout⟩
        | some layout =>
          rcases fits_or_cut layout rest with ⟨operand, back, rfl, hfits⟩ | ⟨missing, hmissing, hfits⟩
          · exact Or.inl ⟨extension, second, _, back, rfl, .extended hlayout hfits⟩
          · exact Or.inr ⟨_, .cut hmissing (.extended hlayout hfits)⟩
    · cases hlayout : layoutIn oneByteTable first with
      | none => exact Or.inr ⟨_, .opcode hfirst hlayout⟩
      | some layout =>
        rcases fits_or_cut layout rest with ⟨operand, back, rfl, hfits⟩ | ⟨missing, hmissing, hfits⟩
        · exact Or.inl ⟨0, first, _, back, rfl, .oneByte hlayout hfits⟩
        · exact Or.inr ⟨_, .cut hmissing (.oneByte hlayout hfits)⟩

/-! ## Reading an instruction -/

/-- An instruction whose first byte is there. -/
theorem instruction_cons (pos : Nat) (first : UInt8) (rest : List UInt8) :
    instruction ⟨pos, first :: rest⟩ = instructionFrom pos first ⟨pos + 1, rest⟩ := rfl

/-- The result of reading an instruction of `size` bytes at `pos`: its place, if 32 bits can hold it. -/
def placed (pos size : Nat) (lead opcode : UInt8) (back : List UInt8) :
    EStateM.Result DecodeError Cursor Boundary :=
  if pos < wordLimit ∧ size < wordLimit then .ok ⟨pos, size, lead, opcode⟩ ⟨pos + size, back⟩
  else .error (.malformed .bodyTooLarge) ⟨pos + size, back⟩

/-- Behind its opcode an instruction is as long as its operand. -/
theorem boundaryFrom_of_fits (h : layout.Fits operand) (start width : Nat) (lead opcode : UInt8)
    (back : List UInt8) : boundaryFrom start lead opcode layout ⟨start + width, operand ++ back⟩ =
      placed start (width + operand.length) lead opcode back := by
  have hskip : skipOperand layout ⟨start + width, operand ++ back⟩ =
      .ok () ⟨start + (width + operand.length), back⟩ := by
    rw [skipOperand_of_fits h, Nat.add_assoc]
  simp only [boundaryFrom, Bind.bind, EStateM.bind, hskip, position, Nat.add_sub_cancel_left, placed]
  by_cases hplaced : start < wordLimit ∧ width + operand.length < wordLimit
  · rw [if_pos hplaced, if_pos hplaced]
    rfl
  · rw [if_neg hplaced, if_neg hplaced]
    rfl

/-- An instruction is read as a whole, and no byte behind it. -/
theorem instruction_of_encodes (h : Encodes lead opcode front) (pos : Nat) (back : List UInt8) :
    instruction ⟨pos, front ++ back⟩ = placed pos front.length lead opcode back := by
  cases h with
  | @oneByte _ _ operand listed fits =>
    have hsize : (opcode :: operand).length = 1 + operand.length := Nat.add_comm _ 1
    show instruction ⟨pos, opcode :: (operand ++ back)⟩ = _
    rw [instruction_cons, instructionFrom, if_neg (ne_extension_of_listed listed), listed, hsize]
    exact boundaryFrom_of_fits fits pos 1 0 opcode back
  | @extended _ _ operand listed fits =>
    have hsize : (extension :: opcode :: operand).length = 2 + operand.length := Nat.add_comm _ 2
    show instruction ⟨pos, extension :: opcode :: (operand ++ back)⟩ = _
    rw [instruction_cons, instructionFrom, if_pos rfl, hsize]
    simp only [Bind.bind, EStateM.bind, byte_cons, listed]
    exact boundaryFrom_of_fits fits pos 2 extension opcode back

/-- An instruction whose operand is cut off runs out of bytes. -/
theorem boundaryFrom_of_cut (h : layout.Fits (bytes ++ missing)) (hmissing : missing ≠ [])
    (start pos : Nat) (lead opcode : UInt8) :
    ∃ c, boundaryFrom start lead opcode layout ⟨pos, bytes⟩ = .error .outOfBounds c := by
  obtain ⟨c, hskip⟩ := skipOperand_of_cut h hmissing pos
  refine ⟨c, ?_⟩
  simp only [boundaryFrom, Bind.bind, EStateM.bind, hskip]

/-- Where there is no instruction, the error is the reason for it. -/
theorem instruction_of_unreadable (h : Unreadable bytes e) (pos : Nat) :
    ∃ c, instruction ⟨pos, bytes⟩ = .error e c := by
  cases h with
  | @opcode first rest plain reserved =>
    refine ⟨⟨pos + 1, rest⟩, ?_⟩
    rw [instruction_cons, instructionFrom, if_neg plain, reserved]
    rfl
  | @extendedOpcode second rest reserved =>
    refine ⟨⟨pos + 2, rest⟩, ?_⟩
    rw [instruction_cons, instructionFrom, if_pos rfl]
    simp only [Bind.bind, EStateM.bind, byte_cons, reserved]
    rfl
  | @cut lead opcode _ missing hmissing whole =>
    -- the bytes that are missing are those of the operand, or already of the opcode
    generalize hbytes : bytes ++ missing = all at whole
    cases bytes with
    | nil => exact ⟨⟨pos, []⟩, rfl⟩
    | cons first rest =>
      rw [instruction_cons]
      cases whole with
      | oneByte listed fits =>
        obtain ⟨rfl, rfl⟩ := List.cons.inj hbytes
        rw [instructionFrom, if_neg (ne_extension_of_listed listed), listed]
        exact boundaryFrom_of_cut fits hmissing pos (pos + 1) 0 first
      | extended listed fits =>
        obtain ⟨rfl, hrest⟩ := List.cons.inj hbytes
        rw [instructionFrom, if_pos rfl]
        cases rest with
        | nil => exact ⟨⟨pos + 1, []⟩, rfl⟩
        | cons second rest =>
          obtain ⟨rfl, rfl⟩ := List.cons.inj hrest
          simp only [Bind.bind, EStateM.bind, byte_cons, listed]
          exact boundaryFrom_of_cut fits hmissing pos (pos + 2) extension second

end Cil

end Retrace
