import Retrace.Bytes.Word
import Retrace.Proofs.Stream.Counterpart

/-!
# The alignment of a run

Whether a run is moved is found out by two scans, each up to the first entry at or behind the start of
the run: one over the authored points, one over the instructions.

* `find?_eq_some_iff_least` : over offsets in order, such a scan finds the least of those that are at or
  behind the start. What it decides can then be told from what starts where, without an order of looking
  (`fit`, `classify_eq_fit`);
* `find?_succ` : over offsets in any order, a scan that stops right behind a start stops there again
  from one offset later. A run that was moved is therefore not moved once more (`alignment_moved`).

`align_classifies` and `align_settles` are the results for whole runs. Moving a run changes nothing
about what starts in its range, since nothing starts at the offset that it gives up
(`InOffsetOrder.exists_offsets_align`).
-/

namespace Retrace.Stream

variable {part authored : Stream} {offsets instructions : List Nat} {start stop n : Nat}

/-! ## What a scan finds -/

/-- In order, the first offset at or behind `start` is the least one. -/
theorem find?_eq_some_iff_least (h : offsets.Pairwise (· ≤ ·)) :
    (offsets.find? fun offset => start ≤ offset) = some n ↔
      n ∈ offsets ∧ start ≤ n ∧ ∀ m ∈ offsets, start ≤ m → n ≤ m := by
  induction offsets with
  | nil => simp
  | cons first rest ih =>
    obtain ⟨hfirst, hrest⟩ := List.pairwise_cons.1 h
    by_cases hle : start ≤ first
    · -- the first element is far enough, and in a sorted list it is the least such
      rw [List.find?_cons_of_pos (by simpa using hle), Option.some.injEq]
      constructor
      · rintro rfl
        refine ⟨List.mem_cons_self, hle, fun m hm _ => ?_⟩
        rcases List.mem_cons.1 hm with rfl | hm
        · exact Nat.le_refl m
        · exact hfirst m hm
      · rintro ⟨hn, -, hleast⟩
        have hn' : n ≤ first := hleast first List.mem_cons_self hle
        rcases List.mem_cons.1 hn with rfl | hn
        · rfl
        · exact Nat.le_antisymm (hfirst n hn) hn'
    · rw [List.find?_cons_of_neg (by simpa using hle), ih hrest]
      constructor
      · rintro ⟨hn, hstart, hleast⟩
        refine ⟨List.mem_cons_of_mem first hn, hstart, fun m hm hm' => ?_⟩
        rcases List.mem_cons.1 hm with rfl | hm
        · exact absurd hm' hle
        · exact hleast m hm hm'
      · rintro ⟨hn, hstart, hleast⟩
        rcases List.mem_cons.1 hn with rfl | hn
        · exact absurd hstart hle
        · exact ⟨hn, hstart, fun m hm => hleast m (List.mem_cons_of_mem first hm)⟩

/-- In order, a scan finds the start itself wherever it is listed. -/
theorem find?_eq_start_iff (h : offsets.Pairwise (· ≤ ·)) :
    (offsets.find? fun offset => start ≤ offset) = some start ↔ start ∈ offsets := by
  rw [find?_eq_some_iff_least h]
  exact ⟨fun hfound => hfound.1, fun hmem => ⟨hmem, Nat.le_refl start, fun _ _ hm => hm⟩⟩

/-- In order, a scan finds the offset right behind a start that is not listed. -/
theorem find?_eq_succ_iff (h : offsets.Pairwise (· ≤ ·)) (hstart : start ∉ offsets) :
    (offsets.find? fun offset => start ≤ offset) = some (start + 1) ↔ start + 1 ∈ offsets := by
  rw [find?_eq_some_iff_least h]
  refine ⟨fun hfound => hfound.1, fun hmem => ⟨hmem, Nat.le_succ start, fun m hm hle => ?_⟩⟩
  have hne : start ≠ m := fun heq => hstart (heq ▸ hm)
  omega

/-- In any order, what comes before the first offset at or behind `start` comes before `start + 1` too.
-/
theorem find?_succ (h : (offsets.find? fun offset => start ≤ offset) = some (start + 1)) :
    (offsets.find? fun offset => start + 1 ≤ offset) = some (start + 1) := by
  obtain ⟨-, before, behind, rfl, hbefore⟩ := List.find?_eq_some_iff_append.1 h
  refine List.find?_eq_some_iff_append.2 ⟨by simp, before, behind, rfl, fun m hm => ?_⟩
  have hlt := hbefore m hm
  simp only [Bool.not_eq_true', decide_eq_false_iff_not] at hlt ⊢
  omega

/-- In order, looking up to the first point at or behind an offset finds any point that starts there.
-/
theorem InOffsetOrder.find?_any_iff (h : authored.InOffsetOrder) :
    ((authored.find? fun p => start ≤ p.offset).any fun p => p.offset == start) ↔
      authored.StartsAt start := by
  have hscan : ((authored.map SequencePoint.offset).find? fun offset => start ≤ offset) =
      (authored.find? fun p => start ≤ p.offset).map SequencePoint.offset := List.find?_map ..
  have hsorted : (authored.map SequencePoint.offset).Pairwise (· ≤ ·) := List.pairwise_map.2 h
  have hfound : _ = some start ↔ _ := find?_eq_start_iff hsorted
  rw [hscan, List.mem_map] at hfound
  rw [StartsAt, ← hfound]
  cases authored.find? fun p => start ≤ p.offset with
  | none => simp
  | some p => simp

/-! ## How a range fits -/

/-- How a run over the offsets from `start` to `stop` fits, told by what starts where. -/
def fit (start stop : Nat) (authored : Stream) (instructions : List Nat) : Alignment :=
  if stop ≤ start + 2 then .skipped
  else if authored.StartsAt start then .pointAligned
  else if start ∈ instructions then .statementAligned
  else if start + 1 ∈ instructions then .nudged
  else .unaligned

/-- If both lists are in order, scanning them up to the first entry at or behind the start is as good
as looking through all of them. -/
theorem classify_eq_fit (hauthored : authored.InOffsetOrder)
    (hinstructions : instructions.Pairwise (· < ·)) :
    classify start stop authored instructions = fit start stop authored instructions := by
  have hsorted := hinstructions.imp fun {m n} (hlt : m < n) => Nat.le_of_lt hlt
  unfold classify fit
  simp only [shortestMoved, Nat.sub_le_iff_le_add', hauthored.find?_any_iff]
  by_cases hshort : stop ≤ start + 2
  · rw [if_pos hshort, if_pos hshort]
  by_cases hpoint : authored.StartsAt start
  · rw [if_neg hshort, if_neg hshort, if_pos hpoint, if_pos hpoint]
  rw [if_neg hshort, if_neg hshort, if_neg hpoint, if_neg hpoint]
  by_cases hstart : start ∈ instructions
  · rw [if_pos hstart, (find?_eq_start_iff hsorted).2 hstart]
    exact if_pos rfl
  by_cases hnext : start + 1 ∈ instructions
  · rw [if_neg hstart, if_pos hnext, (find?_eq_succ_iff hsorted hstart).2 hnext]
    dsimp only
    rw [if_neg (Nat.succ_ne_self start), if_pos rfl]
  · rw [if_neg hstart, if_neg hnext]
    -- an instruction further on neither is at the start nor one behind it
    cases hfound : instructions.find? fun offset => start ≤ offset with
    | none => rfl
    | some offset =>
      have hmem := List.mem_of_find?_eq_some hfound
      dsimp only
      rw [if_neg fun (heq : offset = start) => hstart (heq ▸ hmem),
        if_neg fun (heq : offset = start + 1) => hnext (heq ▸ hmem)]

/-- What moves a range, whatever the order of the two lists. -/
theorem classify_eq_nudged_iff :
    classify start stop authored instructions = .nudged ↔
      start + 2 < stop ∧
        ¬ ((authored.find? fun p => start ≤ p.offset).any fun p => p.offset == start) ∧
        (instructions.find? fun offset => start ≤ offset) = some (start + 1) := by
  rw [classify, shortestMoved]
  by_cases hshort : stop - start ≤ 2
  · rw [if_pos hshort]
    exact iff_of_false nofun fun ⟨hlong, _⟩ => by omega
  rw [if_neg hshort, and_iff_right (show start + 2 < stop by omega)]
  by_cases hpoint : (authored.find? fun p => start ≤ p.offset).any fun p => p.offset == start
  · rw [if_pos hpoint]
    exact iff_of_false nofun fun ⟨hnone, _⟩ => hnone hpoint
  rw [if_neg hpoint, and_iff_right hpoint]
  cases instructions.find? fun offset => start ≤ offset with
  | none => simp
  | some offset =>
    dsimp only
    rw [Option.some.injEq]
    split
    · next hstart => exact iff_of_false nofun fun hnext => by omega
    · split
      · next hnext => exact iff_of_true rfl hnext
      · next hnext => exact iff_of_false nofun hnext

/-- A range is only moved if no authored point starts at its start. -/
theorem InOffsetOrder.not_startsAt_of_nudged (h : authored.InOffsetOrder)
    (hnudged : classify start stop authored instructions = .nudged) : ¬ authored.StartsAt start :=
  mt h.find?_any_iff.2 (classify_eq_nudged_iff.1 hnudged).2.1

/-- The instruction that moves a range is where the moved range starts. -/
theorem classify_succ_ne_nudged (h : classify start stop authored instructions = .nudged) :
    classify (start + 1) stop authored instructions ≠ .nudged := by
  intro hagain
  -- the scan from `start + 1` stops at `start + 1`, and would have to stop one offset later
  have hfound := find?_succ (classify_eq_nudged_iff.1 h).2.2
  rw [(classify_eq_nudged_iff.1 hagain).2.2] at hfound
  exact Nat.succ_ne_self (start + 1) (Option.some.inj hfound)

/-! ## Moved runs -/

/-- The range of a run starts where its first point does. -/
theorem exists_cons_of_offsets (h : part.offsets? = some (start, stop)) :
    ∃ first rest, part = first :: rest ∧ first.offset = start := by
  cases part with
  | nil => cases h
  | cons first rest =>
    rw [offsets?, List.head?_cons, List.getLast?_cons] at h
    cases h
    exact ⟨first, rest, rfl, rfl⟩

/-- Moving a run moves its start. -/
theorem offsets?_moved (h : part.offsets? = some (start, stop)) :
    part.moved.offsets? = some (start + 1, stop) := by
  match part, h with
  | [_], rfl => rfl
  | _ :: _ :: _, h =>
    simp only [offsets?, List.head?_cons, List.getLast?_cons, Option.some.injEq,
      Prod.mk.injEq, moved] at h ⊢
    exact ⟨by rw [h.1], h.2⟩

/-- How a part is aligned depends on its first and last offset only. -/
theorem alignment_of_offsets (h : part.offsets? = some (start, stop)) (authored : Stream)
    (instructions : List Nat) :
    part.alignment authored instructions = classify start stop authored instructions := by
  rw [alignment, h]

/-- A run that is moved has a start, an end and room between them. -/
theorem exists_of_alignment_eq_nudged (h : part.alignment authored instructions = .nudged) :
    ∃ start stop, part.offsets? = some (start, stop) ∧
      classify start stop authored instructions = .nudged := by
  unfold alignment at h
  split at h
  · cases h
  · next start stop hoffsets => exact ⟨start, stop, hoffsets, h⟩

/-- No run is moved twice. -/
theorem alignment_moved (h : part.alignment authored instructions = .nudged) :
    part.moved.alignment authored instructions ≠ .nudged := by
  obtain ⟨start, stop, hoffsets, hnudged⟩ := exists_of_alignment_eq_nudged h
  rw [alignment_of_offsets (offsets?_moved hoffsets)]
  exact classify_succ_ne_nudged hnudged

/-- A part is moved if that is how it is to be aligned. -/
theorem align_of_nudged (h : part.alignment authored instructions = .nudged) :
    part.align authored instructions = (.nudged, part.moved) := by
  rw [align, h]

/-- Otherwise it stays as it is. -/
theorem align_of_ne_nudged (h : part.alignment authored instructions ≠ .nudged) :
    part.align authored instructions = (part.alignment authored instructions, part) := by
  unfold align
  split
  · next hnudged => exact absurd hnudged h
  · rfl

/-- The alignment says what was done. -/
theorem align_fst (part authored : Stream) (instructions : List Nat) :
    (part.align authored instructions).1 = part.alignment authored instructions := by
  by_cases h : part.alignment authored instructions = .nudged
  · rw [align_of_nudged h, h]
  · rw [align_of_ne_nudged h]

/-- Where no point starts, a range may begin one offset later. -/
theorem within_succ (h : ¬ authored.StartsAt start) :
    authored.within (start + 1) stop = authored.within start stop := by
  refine List.filter_congr fun p hp => ?_
  have hne : p.offset ≠ start := fun hoff => h ⟨p, hp, hoff⟩
  rw [decide_eq_decide]
  omega

/-- Aligning a run changes nothing about what starts in its range. -/
theorem InOffsetOrder.exists_offsets_align (h : authored.InOffsetOrder)
    (hpart : part.offsets? = some (start, stop)) (instructions : List Nat) :
    ∃ start', (part.align authored instructions).2.offsets? = some (start', stop) ∧
      authored.within start' stop = authored.within start stop := by
  by_cases hnudged : part.alignment authored instructions = .nudged
  · rw [align_of_nudged hnudged]
    rw [alignment_of_offsets hpart] at hnudged
    exact ⟨start + 1, offsets?_moved hpart, within_succ (h.not_startsAt_of_nudged hnudged)⟩
  · rw [align_of_ne_nudged hnudged]
    exact ⟨start, hpart, rfl⟩

/-! ## How a run fits, and what it is carried over to -/

/-- With the authored points and the instructions in order, how a run fits is told by what starts where.
Unless the run is left alone for being too short, the offset behind its start is one that 32 bits hold.
If an authored point starts where a run was moved to, the run is carried over to what starts in its new
range, and to nothing in front of that. -/
theorem align_classifies {selected : Stream} (hselected : selected.offsets? = some (start, stop))
    (hstop : stop < wordLimit) (hauthored : authored.InOffsetOrder)
    (hinstructions : instructions.Pairwise (· < ·)) :
    (selected.align authored instructions).1 = fit start stop authored instructions ∧
      ((selected.align authored instructions).1 ≠ .skipped → start + 1 < wordLimit) ∧
      ((selected.align authored instructions).1 = .nudged → authored.StartsAt (start + 1) →
        counterpart (selected.align authored instructions).2 authored =
          authored.within (start + 1) stop) := by
  have hfit : selected.alignment authored instructions = fit start stop authored instructions := by
    rw [alignment_of_offsets hselected, classify_eq_fit hauthored hinstructions]
  rw [align_fst]
  refine ⟨hfit, fun hlong => ?_, fun hnudged hstarts => ?_⟩
  · have hroom : ¬ stop ≤ start + 2 := fun hshort => by
      rw [hfit, fit, if_pos hshort] at hlong
      exact hlong rfl
    omega
  · have hclassify := hnudged
    rw [alignment_of_offsets hselected] at hclassify
    have hroom := (classify_eq_nudged_iff.1 hclassify).1
    rw [align_of_nudged hnudged]
    exact counterpart_eq_within hauthored (offsets?_moved hselected) (by omega) hstarts

/-- A run that starts one byte in front of the second of two points is moved there, and the first point
is not taken. -/
theorem align_classifies_of_shifted :
    let authored : Stream := [bare 0 5, bare 5 10]
    offsets? [bare 4 7, bare 7 10] = some (4, 10) ∧ 10 < wordLimit ∧ authored.InOffsetOrder ∧
      [0, 1, 5, 6].Pairwise (· < ·) ∧ fit 4 10 authored [0, 1, 5, 6] = .nudged ∧
      authored.StartsAt 5 ∧ 5 < wordLimit ∧
      (align [bare 4 7, bare 7 10] authored [0, 1, 5, 6]).1 = .nudged ∧
      counterpart (align [bare 4 7, bare 7 10] authored [0, 1, 5, 6]).2 authored = [bare 5 10] := by
  intro authored
  have hselected : offsets? [bare 4 7, bare 7 10] = some (4, 10) := rfl
  have hauthored : authored.InOffsetOrder := by decide
  have hinstructions : [0, 1, 5, 6].Pairwise (· < ·) := by decide
  have hfit : fit 4 10 authored [0, 1, 5, 6] = .nudged := by decide
  have hstarts : authored.StartsAt 5 := by decide
  obtain ⟨houtcome, hword, hmapped⟩ :=
    align_classifies hselected (by decide) hauthored hinstructions
  have hnudged := houtcome.trans hfit
  exact ⟨hselected, by decide, hauthored, hinstructions, hfit, hstarts,
    hword (by rw [hnudged]; exact nofun), hnudged, hmapped hnudged hstarts⟩

/-! ## Aligning once and again -/

/-- Whatever the order of points and instructions, aligning changes a run exactly if it is moved. Then
only the start of its first point changes, by one, and stays in front of the end of the run. Aligning
the run again with the same points and instructions does not move it and changes nothing. -/
theorem align_settles (selected authored : Stream) (instructions : List Nat) :
    let outcome := (selected.align authored instructions).1
    let aligned := (selected.align authored instructions).2
    (aligned ≠ selected ↔ outcome = .nudged) ∧
      (outcome = .nudged → ∃ first rest stop, selected = first :: rest ∧
        aligned = { first with offset := first.offset + 1 } :: rest ∧
        selected.offsets? = some (first.offset, stop) ∧
        aligned.offsets? = some (first.offset + 1, stop) ∧ first.offset + 1 < stop) ∧
      (aligned.align authored instructions).1 ≠ .nudged ∧
      (aligned.align authored instructions).2 = aligned := by
  intro outcome aligned
  have houtcome : outcome = selected.alignment authored instructions := align_fst _ _ _
  rw [houtcome]
  by_cases hnudged : selected.alignment authored instructions = .nudged
  · have haligned : aligned = selected.moved := congrArg Prod.snd (align_of_nudged hnudged)
    obtain ⟨start, stop, hoffsets, hclassify⟩ := exists_of_alignment_eq_nudged hnudged
    have hroom := (classify_eq_nudged_iff.1 hclassify).1
    have hmoved := offsets?_moved hoffsets
    have hagain := alignment_moved hnudged
    obtain ⟨first, rest, rfl, rfl⟩ := exists_cons_of_offsets hoffsets
    rw [haligned]
    refine ⟨iff_of_true (fun hsame => ?_) hnudged, fun _ => ?_, ?_, ?_⟩
    · rw [hsame, hoffsets, Option.some.injEq, Prod.mk.injEq] at hmoved
      omega
    · exact ⟨first, rest, stop, rfl, rfl, hoffsets, hmoved, by omega⟩
    · rwa [align_fst]
    · rw [align_of_ne_nudged hagain]
  · have haligned : aligned = selected := congrArg Prod.snd (align_of_ne_nudged hnudged)
    rw [haligned, align_fst, align_of_ne_nudged hnudged]
    exact ⟨iff_of_false (fun hne => hne rfl) hnudged, fun h => absurd h hnudged, hnudged, rfl⟩

/-- With both lists out of order, a run is moved although a point and an instruction start where it did.
It is not moved again. -/
theorem align_settles_of_unordered :
    let authored : Stream := [bare 6 8, bare 3 6]
    let aligned : Stream := [bare 4 5, bare 5 9]
    authored.StartsAt 3 ∧ 3 ∈ [2, 4, 3, 9] ∧
      align [bare 3 5, bare 5 9] authored [2, 4, 3, 9] = (.nudged, aligned) ∧
      aligned ≠ [bare 3 5, bare 5 9] ∧ (aligned.align authored [2, 4, 3, 9]).1 ≠ .nudged ∧
      (aligned.align authored [2, 4, 3, 9]).2 = aligned := by
  intro authored aligned
  have halign : align [bare 3 5, bare 5 9] authored [2, 4, 3, 9] = (.nudged, aligned) := by decide
  obtain ⟨hchanges, -, hagain, hsame⟩ :=
    align_settles [bare 3 5, bare 5 9] authored [2, 4, 3, 9]
  rw [halign] at hchanges hagain hsame
  exact ⟨by decide, by decide, halign, hchanges.2 rfl, hagain, hsame⟩

end Retrace.Stream
