import Retrace.Proofs.Stream.Counterpart
import Mathlib.Algebra.Group.Nat.Defs

/-!
# A counterpart taken again

What was taken for a range of offsets is a stream itself, and the counterpart for the same range can
be taken from it again. `counterpart_again` says when this gives all of it back.

The points that start in the range are never lost (`counterpart_of_forall`). In front of them there
may be one leading point, on which the first search landed by halving the whole stream
(`counterpart_eq_append`). The second search halves what was taken, with just this one point in front
of the range, and need not land on it again. If it does not, the leading point is shed, and what is
left stays as it is from then on.

With one point in front of the target, where the halving of `n` points lands can be read off the binary
digits of `n + 2` (`landing_one_eq_one_iff`), and so off the number of points that were taken.
-/

namespace Retrace.Stream

variable {needle haystack points rest : Stream} {p : SequencePoint} {start stop : Nat}

/-! ## One point in front of the target -/

/-- The binary digits of a number begin with two ones. -/
def BeginsWithOnes (n : Nat) : Prop := ∃ j, 3 * 2 ^ j ≤ n ∧ n < 4 * 2 ^ j

/-- The exponent is below the number itself, so that the condition can be decided. -/
theorem beginsWithOnes_iff_lt {n : Nat} :
    BeginsWithOnes n ↔ ∃ j < n, 3 * 2 ^ j ≤ n ∧ n < 4 * 2 ^ j := by
  constructor
  · rintro ⟨j, hle, hlt⟩
    have := Nat.lt_two_pow_self (n := j)
    exact ⟨j, by omega, hle, hlt⟩
  · rintro ⟨j, -, hj⟩
    exact ⟨j, hj⟩

instance (n : Nat) : Decidable (BeginsWithOnes n) := decidable_of_iff' _ beginsWithOnes_iff_lt

/-- The last digit of a number with three or more digits does not count. -/
theorem beginsWithOnes_half {n : Nat} (h : 4 ≤ n) : BeginsWithOnes (n / 2) ↔ BeginsWithOnes n := by
  constructor
  · rintro ⟨j, hle, hlt⟩
    refine ⟨j + 1, ?_⟩
    rw [Nat.pow_succ]
    omega
  · rintro ⟨_ | j, hle, hlt⟩
    · omega
    · rw [Nat.pow_succ] at hle hlt
      exact ⟨j, by omega⟩

/-- The middle of two or more points is behind the first one, so the halving turns toward the start. -/
theorem settle_one_add_two (n : Nat) : settle 1 0 (n + 2 : Nat) = settle 1 0 (n / 2 : Nat) := by
  have hmiddle : middle 0 (n + 2 : Nat) = (n / 2 + 1 : Nat) := by
    rw [middle, Int.tdiv_eq_ediv_of_nonneg (by omega)]
    omega
  have hright : ((n / 2 + 1 : Nat) : Int) - 1 = (n / 2 : Nat) := by omega
  rw [settle, dif_pos (by omega), if_neg (by omega), hmiddle, hright]

/-- Behind one point, the halving comes down on the cut if the width begins with two ones. -/
theorem settle_one_eq_one_iff {right : Nat} :
    settle 1 0 right = 1 ↔ BeginsWithOnes (right + 2) := by
  induction right using Nat.strongRecOn with
  | ind right ih =>
    match right with
    | 0 => decide +kernel
    | 1 => decide +kernel
    | n + 2 =>
      have hhalf : (n + 2 + 2) / 2 = n / 2 + 2 := by omega
      rw [settle_one_add_two, ih (n / 2) (by omega), ← hhalf, beginsWithOnes_half (by omega)]

/-- With one point in front of the target, the halving of `n` points lands behind it exactly if the
binary digits of `n + 2` begin with two ones. -/
theorem landing_one_eq_one_iff {n : Nat} : landing 1 n = 1 ↔ BeginsWithOnes (n + 2) := by
  rw [← settle_one_eq_one_iff, landing]
  omega

/-- That is for one point, for four or five, for ten to thirteen, and so on. -/
example : (List.range 16).filter (fun n => BeginsWithOnes (n + 2)) = [1, 4, 5, 10, 11, 12, 13] := by
  decide

/-! ## What is taken from a run -/

/-- At most one point is its own counterpart for every range. -/
theorem counterpart_of_short (hneedle : needle.offsets? = some (start, stop))
    (hshort : points.length < 2) : counterpart needle points = points := by
  match points, hshort with
  | [], _ => exact counterpart_nil needle
  | [p], _ => exact counterpart_singleton hneedle p

/-- The run from the first index to the last is the whole stream. -/
theorem run_zero_length (points : Stream) : run points 0 points.length = points := by
  rw [run, List.drop_zero, Nat.sub_zero, List.take_length]

/-- Points that all start in the range are all taken. -/
theorem InOffsetOrder.counterpart_of_forall (h : points.InOffsetOrder)
    (hneedle : needle.offsets? = some (start, stop))
    (hin : ∀ p ∈ points, start ≤ p.offset ∧ p.offset < stop) :
    counterpart needle points = points := by
  rcases Nat.lt_or_ge points.length 2 with hshort | hlen
  · exact counterpart_of_short hneedle hshort
  have hstart : points.countBefore start = 0 :=
    countBefore_eq_zero_iff.2 fun p hp => (hin p hp).1
  have hstop : points.countBefore stop = points.length :=
    countBefore_eq_length_iff.2 fun p hp => (hin p hp).2
  have hindex : points.boundaryIndex start = 0 := by
    have := points.boundaryIndex_cases start
    omega
  rw [counterpart_eq_run h hlen hneedle, hstart, hstop, hindex, if_pos (by omega),
    show points.length - 1 + 1 = points.length from by omega]
  exact run_zero_length points

/-- What starts in a range has itself as its counterpart. -/
theorem InOffsetOrder.counterpart_within (h : haystack.InOffsetOrder)
    (hneedle : needle.offsets? = some (start, stop)) :
    counterpart needle (haystack.within start stop) = haystack.within start stop := by
  have horder : (haystack.within start stop).InOffsetOrder := h.filter _
  refine horder.counterpart_of_forall hneedle fun p hp => ?_
  simpa using (List.mem_filter.1 hp).2

/-- Behind one point in front of the range, all points that start in it are taken. Whether the point in
front is taken too depends on how many they are. -/
theorem InOffsetOrder.counterpart_cons (h : InOffsetOrder (p :: rest))
    (hneedle : needle.offsets? = some (start, stop)) (hfront : p.offset < start)
    (hne : rest ≠ []) (hin : ∀ q ∈ rest, start < q.offset ∧ q.offset < stop) :
    counterpart needle (p :: rest) =
      if BeginsWithOnes (rest.length + 3) then rest else p :: rest := by
  obtain ⟨q, hq⟩ := List.exists_mem_of_ne_nil rest hne
  have hpos : 0 < rest.length := List.length_pos_of_mem hq
  have hstart : countBefore (p :: rest) start = 1 := by
    rw [countBefore_cons_of_lt rest hfront,
      countBefore_eq_zero_iff.2 fun q hq => Nat.le_of_lt (hin q hq).1]
  have hstop : countBefore (p :: rest) stop = rest.length + 1 := by
    have hlt : p.offset < stop := by
      have := hin q hq
      omega
    rw [countBefore_cons_of_lt rest hlt, countBefore_eq_length_iff.2 fun q hq => (hin q hq).2]
  -- no point starts at the needle, so that the search ends where the halving does
  have hnone : ¬ StartsAt (p :: rest) start := by
    rintro ⟨q, hq, hoff⟩
    rcases List.mem_cons.1 hq with rfl | hq
    · omega
    · have := hin q hq
      omega
  have hindex : boundaryIndex (p :: rest) start = landing 1 (rest.length + 1) := by
    rw [boundaryIndex, if_neg hnone, hstart, List.length_cons]
  have hland := landing_cases (k := 1) (n := rest.length + 1) (by omega)
  rw [counterpart_eq_run h (Nat.succ_le_succ hpos) hneedle, hstart, hstop, hindex,
    List.length_cons, if_pos (by omega), Nat.add_sub_cancel]
  by_cases hones : BeginsWithOnes (rest.length + 3)
  · rw [if_pos hones, landing_one_eq_one_iff.2 hones]
    exact run_zero_length rest
  · have hbehind := mt landing_one_eq_one_iff.1 hones
    rw [if_neg hones, show landing 1 (rest.length + 1) = 0 from by omega]
    exact run_zero_length (p :: rest)

/-- What is taken for a range in which some point starts: the points that start in it, behind those
from the boundary on that start before it. -/
theorem InOffsetOrder.counterpart_eq_append (h : haystack.InOffsetOrder)
    (hneedle : needle.offsets? = some (start, stop))
    (hsome : haystack.countBefore start < haystack.countBefore stop) :
    counterpart needle haystack =
      run haystack (haystack.boundaryIndex start) (haystack.countBefore start) ++
        haystack.within start stop := by
  have hcases := haystack.boundaryIndex_cases start
  have hle := haystack.countBefore_le_length stop
  have hstart : start ≤ stop := Nat.le_of_lt <| Nat.lt_of_not_le fun hge => by
    have := haystack.countBefore_mono hge
    omega
  rw [h.within_eq_run hstart, run_append_run haystack (by omega) (by omega)]
  rcases Nat.lt_or_ge haystack.length 2 with hshort | hlen
  · rw [counterpart_of_short hneedle hshort, show haystack.boundaryIndex start = 0 from by omega,
      show haystack.countBefore stop = haystack.length from by omega]
    exact (run_zero_length haystack).symm
  · rw [counterpart_eq_run h hlen hneedle, if_pos (by omega),
      show haystack.countBefore stop - 1 + 1 = haystack.countBefore stop from by omega]

/-! ## What is taken again -/

/-- The first search begins one point in front of the range, some point starts in the range, and the
number of points that are taken, with two added to it, begins with two ones. -/
def Sheds (points : Stream) (start stop : Nat) : Prop :=
  points.boundaryIndex start + 1 = points.countBefore start ∧
    points.countBefore start < points.countBefore stop ∧
    BeginsWithOnes (points.countBefore stop - points.countBefore start + 3)

instance (points : Stream) (start stop : Nat) : Decidable (points.Sheds start stop) :=
  inferInstanceAs (Decidable (points.boundaryIndex start + 1 = points.countBefore start ∧
    points.countBefore start < points.countBefore stop ∧
    BeginsWithOnes (points.countBefore stop - points.countBefore start + 3)))

/-- If a point in front is taken too, none starts at the beginning of the range. -/
theorem not_startsAt_of_leading
    (hleading : points.boundaryIndex start + 1 = points.countBefore start) :
    ¬ points.StartsAt start := by
  intro hstarts
  rw [hstarts.boundaryIndex_eq] at hleading
  omega

/-- Where a point starts right at the start of the range, there is no leading point to be shed. -/
theorem StartsAt.not_sheds (h : points.StartsAt start) : ¬ points.Sheds start stop :=
  fun hsheds => not_startsAt_of_leading hsheds.1 h

/-- A range in which no point starts takes at most one point. -/
theorem InOffsetOrder.length_counterpart_lt (h : haystack.InOffsetOrder)
    (hneedle : needle.offsets? = some (start, stop)) (hlt : start < stop)
    (hnone : haystack.countBefore stop ≤ haystack.countBefore start) :
    (counterpart needle haystack).length < 2 := by
  obtain ⟨leading, htaken, hleading⟩ := h.exists_leading hneedle
  rw [htaken, h.within_eq_run (Nat.le_of_lt hlt), run_eq_nil haystack hnone, List.append_nil]
  omega

/-- The leading point, where the search begins one point in front of the range. -/
theorem InOffsetOrder.exists_counterpart_eq_cons (h : haystack.InOffsetOrder)
    (hneedle : needle.offsets? = some (start, stop))
    (hleading : haystack.boundaryIndex start + 1 = haystack.countBefore start)
    (hsome : haystack.countBefore start < haystack.countBefore stop) :
    ∃ p, p.offset < start ∧
      counterpart needle haystack = p :: haystack.within start stop := by
  have hle := haystack.countBefore_le_length start
  have hp : haystack[haystack.boundaryIndex start]? = some haystack[haystack.boundaryIndex start] :=
    List.getElem?_eq_getElem (by omega)
  refine ⟨_, (h.lt_countBefore_iff hp start).1 (by omega), ?_⟩
  rw [h.counterpart_eq_append hneedle hsome, ← hleading, run_succ, hp]
  rfl

/-- In order, a range has the points that are counted by its end and not by its start. -/
theorem InOffsetOrder.length_within (h : haystack.InOffsetOrder) (hle : start ≤ stop) :
    (haystack.within start stop).length =
      haystack.countBefore stop - haystack.countBefore start := by
  rw [h.within_eq_run hle, length_run (haystack.countBefore_le_length stop)]

/-- The second search, where the first one began one point in front of the range. -/
theorem InOffsetOrder.counterpart_cons_within (h : haystack.InOffsetOrder)
    (hneedle : needle.offsets? = some (start, stop)) (hlt : start < stop)
    (hleading : haystack.boundaryIndex start + 1 = haystack.countBefore start)
    (hsome : haystack.countBefore start < haystack.countBefore stop) (hfront : p.offset < start) :
    counterpart needle (p :: haystack.within start stop) =
      if haystack.Sheds start stop then haystack.within start stop
      else p :: haystack.within start stop := by
  have hlength := h.length_within (Nat.le_of_lt hlt)
  have hne : haystack.within start stop ≠ [] := List.ne_nil_of_length_pos (by omega)
  have hin : ∀ q ∈ haystack.within start stop, start < q.offset ∧ q.offset < stop := by
    intro q hq
    obtain ⟨hmem, hrange⟩ := List.mem_filter.1 hq
    have hoff : q.offset ≠ start := fun hoff =>
      not_startsAt_of_leading hleading ⟨q, hmem, hoff⟩
    simp only [decide_eq_true_eq] at hrange
    omega
  have horder : InOffsetOrder (p :: haystack.within start stop) :=
    List.pairwise_cons.2 ⟨fun q hq => Nat.le_of_lt (Nat.lt_trans hfront (hin q hq).1), h.filter _⟩
  have hsheds : haystack.Sheds start stop ↔
      BeginsWithOnes ((haystack.within start stop).length + 3) := by
    rw [Sheds, hlength]
    exact ⟨fun hs => hs.2.2, fun hs => ⟨hleading, hsome, hs⟩⟩
  rw [horder.counterpart_cons hneedle hfront hne hin]
  simp only [hsheds]

/-- Taking the counterpart again gives all of it back, unless its leading point is shed. -/
theorem InOffsetOrder.counterpart_counterpart (h : haystack.InOffsetOrder)
    (hneedle : needle.offsets? = some (start, stop)) (hlt : start < stop)
    (hkept : ¬ haystack.Sheds start stop) :
    counterpart needle (counterpart needle haystack) = counterpart needle haystack := by
  rcases Nat.lt_or_ge (haystack.countBefore start) (haystack.countBefore stop) with hsome | hnone
  · rcases haystack.boundaryIndex_cases start with hindex | ⟨hleading, -⟩
    · rw [h.counterpart_eq_append hneedle hsome, hindex, run_eq_nil haystack (Nat.le_refl _),
        List.nil_append]
      exact h.counterpart_within hneedle
    · obtain ⟨p, hfront, htaken⟩ := h.exists_counterpart_eq_cons hneedle hleading hsome
      rw [htaken, h.counterpart_cons_within hneedle hlt hleading hsome hfront, if_neg hkept]
  · exact counterpart_of_short hneedle (h.length_counterpart_lt hneedle hlt hnone)

/-- If the leading point is shed, the points that start in the range are left. -/
theorem InOffsetOrder.counterpart_of_sheds (h : haystack.InOffsetOrder)
    (hneedle : needle.offsets? = some (start, stop)) (hlt : start < stop)
    (hsheds : haystack.Sheds start stop) :
    ∃ p, p.offset < start ∧ counterpart needle haystack = p :: haystack.within start stop ∧
      counterpart needle (counterpart needle haystack) = haystack.within start stop := by
  have ⟨hleading, hsome, _⟩ := hsheds
  obtain ⟨p, hfront, htaken⟩ := h.exists_counterpart_eq_cons hneedle hleading hsome
  refine ⟨p, hfront, htaken, ?_⟩
  rw [htaken, h.counterpart_cons_within hneedle hlt hleading hsome hfront, if_pos hsheds]

/-- A counterpart taken again for the same range is the same if some point starts right where the
range does, and in general exactly if its leading point is not shed. If it is, this point, which
starts in front of the range, is all that is lost. Taken a third time, nothing changes any more. -/
theorem counterpart_again (h : haystack.InOffsetOrder)
    (hneedle : needle.offsets? = some (start, stop)) (hlt : start < stop) :
    (haystack.StartsAt start →
      counterpart needle (counterpart needle haystack) = counterpart needle haystack) ∧
    (counterpart needle (counterpart needle haystack) = counterpart needle haystack ↔
      ¬ haystack.Sheds start stop) ∧
    (haystack.Sheds start stop → ∃ p, p.offset < start ∧
      counterpart needle haystack = p :: haystack.within start stop ∧
      counterpart needle (counterpart needle haystack) = haystack.within start stop) ∧
    counterpart needle (counterpart needle (counterpart needle haystack)) =
      counterpart needle (counterpart needle haystack) := by
  refine ⟨fun hstarts => h.counterpart_counterpart hneedle hlt hstarts.not_sheds,
    ⟨?_, h.counterpart_counterpart hneedle hlt⟩, h.counterpart_of_sheds hneedle hlt, ?_⟩
  · intro hsame hsheds
    obtain ⟨p, -, htaken, hagain⟩ := h.counterpart_of_sheds hneedle hlt hsheds
    have hlength := congrArg List.length ((hagain.symm.trans hsame).trans htaken)
    rw [List.length_cons] at hlength
    omega
  · by_cases hsheds : haystack.Sheds start stop
    · obtain ⟨p, -, -, hagain⟩ := h.counterpart_of_sheds hneedle hlt hsheds
      rw [hagain]
      exact h.counterpart_within hneedle
    · rw [h.counterpart_counterpart hneedle hlt hsheds,
        h.counterpart_counterpart hneedle hlt hsheds]

/-- Five points of five bytes each. -/
def fivePoints : Stream := [bare 0 5, bare 5 10, bare 10 15, bare 15 20, bare 20 25]

/-- From the offsets 7 to 20 of five points nothing is lost, and from 7 to 25 the leading one is. -/
theorem counterpart_again_of_five :
    fivePoints.InOffsetOrder ∧ offsets? [bare 7 20] = some (7, 20) ∧ 7 < 20 ∧
      counterpart [bare 7 20] (counterpart [bare 7 20] fivePoints) =
        counterpart [bare 7 20] fivePoints ∧
      offsets? [bare 7 25] = some (7, 25) ∧ 7 < 25 ∧
      counterpart [bare 7 25] (counterpart [bare 7 25] fivePoints) =
        [bare 10 15, bare 15 20, bare 20 25] := by
  have horder : fivePoints.InOffsetOrder := by decide
  have hkept : ¬ fivePoints.Sheds 7 20 := by decide +kernel
  have hsheds : fivePoints.Sheds 7 25 := by decide +kernel
  have hshort : offsets? [bare 7 20] = some (7, 20) := rfl
  have hlong : offsets? [bare 7 25] = some (7, 25) := rfl
  obtain ⟨-, hiff, -, -⟩ := counterpart_again horder hshort (by decide)
  obtain ⟨-, -, hshed, -⟩ := counterpart_again horder hlong (by decide)
  obtain ⟨p, -, -, hagain⟩ := hshed hsheds
  exact ⟨horder, hshort, by decide, hiff.2 hkept, hlong, by decide, hagain⟩

/-- So a counterpart taken again need not be the same. -/
theorem not_forall_counterpart_again :
    ¬ ∀ (needle haystack : Stream) (start stop : Nat),
      haystack.Pairwise (fun p q => p.offset < q.offset) →
      needle.offsets? = some (start, stop) → start < stop →
      counterpart needle (counterpart needle haystack) = counterpart needle haystack := by
  intro h
  have horder : fivePoints.InOffsetOrder := by decide
  have hsheds : fivePoints.Sheds 7 25 := by decide +kernel
  have hneedle : offsets? [bare 7 25] = some (7, 25) := rfl
  have hsame := h [bare 7 25] fivePoints 7 25 (by decide) hneedle (by decide)
  obtain ⟨p, -, htaken, hagain⟩ := horder.counterpart_of_sheds hneedle (by decide) hsheds
  rw [hagain, htaken] at hsame
  exact List.cons_ne_self _ _ hsame.symm

end Retrace.Stream
