import Retrace.Bytes.Compressed

/-!
# More bytes behind

What a decoder makes of bytes does not depend on what comes behind them, as long as it does not run out
of them. `Decoder.Stable` says so for a single decoder. It holds of the decoders of compressed integers
and is closed under `bind`, so that it holds of whatever is composed of them.

Read the other way round, it tells what a decoder makes of bytes that are cut off: either it runs out of
them, or it does not notice (`Stable.of_extend_ok`).
-/

namespace Retrace

/-- The cursor with more bytes to come behind the others. -/
def Cursor.extend (c : Cursor) (more : List UInt8) : Cursor := ⟨c.pos, c.rest ++ more⟩

namespace Decoder

variable {α β : Type} {d : Decoder α} {f : α → Decoder β} {a : α} {c c' : Cursor}
  {more : List UInt8}

/-- The same result, with more bytes behind the cursor. -/
def extendResult (more : List UInt8) :
    EStateM.Result DecodeError Cursor α → EStateM.Result DecodeError Cursor α
  | .ok a c => .ok a (c.extend more)
  | .error e c => .error e (c.extend more)

/-- With more bytes behind, the decoder does the same as without them, unless it ran out of bytes. -/
def Stable (d : Decoder α) : Prop :=
  ∀ c more, (∃ c', d c = .error .outOfBounds c') ∨ d (c.extend more) = extendResult more (d c)

/-- To read nothing does not depend on what follows. -/
theorem Stable.pure (a : α) : Stable (Pure.pure a : Decoder α) := fun _ _ => Or.inr rfl

/-- To fail at once does not depend on what follows. -/
theorem Stable.throw (e : DecodeError) : Stable (throw e : Decoder α) := fun _ _ => Or.inr rfl

/-- If neither of two decoders depends on what follows, both together do not. -/
theorem Stable.bind (hd : Stable d) (hf : ∀ a, Stable (f a)) : Stable (d >>= f) := by
  intro c more
  simp only [Bind.bind, EStateM.bind]
  rcases hd c more with ⟨c', hout⟩ | hsame
  · rw [hout]
    exact Or.inl ⟨c', rfl⟩
  · rw [hsame]
    cases d c with
    | ok a c' => exact hf a c' more
    | error e c' => exact Or.inr rfl

/-- A byte that is there does not depend on what follows it. -/
theorem stable_byte : Stable byte := by
  intro c more
  obtain ⟨pos, rest⟩ := c
  cases rest with
  | nil => exact Or.inl ⟨_, rfl⟩
  | cons b rest => exact Or.inr rfl

/-- The bytes behind a first one say how many there are, so that later ones do not matter. -/
theorem stable_compressedFrom (first : UInt8) : Stable (compressedFrom first) := by
  unfold compressedFrom
  split
  · exact .pure _
  split
  · exact stable_byte.bind fun _ => .pure _
  split
  · exact stable_byte.bind fun _ => stable_byte.bind fun _ => stable_byte.bind fun _ => .pure _
  · exact .throw _

/-- A compressed integer does not depend on what follows it. -/
theorem stable_compressed : Stable compressed := stable_byte.bind stable_compressedFrom

/-- An unsigned integer does not depend on what follows it. -/
theorem stable_compressedUnsigned : Stable compressedUnsigned :=
  stable_compressed.bind fun _ => .pure _

/-- A signed integer does not depend on what follows it. -/
theorem stable_compressedSigned : Stable compressedSigned :=
  stable_compressed.bind fun _ => .pure _

/-- What is read where more bytes follow is read without them too, if the bytes do not run out. -/
theorem Stable.of_extend_ok (hd : Stable d) (h : d (c.extend more) = .ok a c') :
    (∃ c₁, d c = .error .outOfBounds c₁) ∨ ∃ c₁, d c = .ok a c₁ ∧ c' = c₁.extend more := by
  rcases hd c more with hout | hsame
  · exact Or.inl hout
  · rw [h] at hsame
    cases hc : d c with
    | ok b c₁ =>
      rw [hc] at hsame
      cases hsame
      exact Or.inr ⟨c₁, rfl, rfl⟩
    | error e c₁ =>
      rw [hc] at hsame
      cases hsame

end Decoder

end Retrace
