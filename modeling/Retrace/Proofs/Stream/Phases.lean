import Retrace.Stream.Boundary

/-!
# The two phases of a boundary search

What the binary phase and the walk of `boundary` do in a stream that its target cuts into three
parts: first `k` points before the target, then the points on it, then the points behind it.

`probe_ending` is the invariant of the binary phase. Whenever it ends without having met the target,
the index it ends on is `k` or `k - 1`, and every point behind that index lies behind the target; the
remembered point is one off. `walkLater_eq` and `walkEarlier_eq` compute both walks from the points
they pass, so that the remembered point matters only for the direction.

Which of `k` and `k - 1` it is depends on the number of points alone: `landing` replays the halving on
indices, and `probe_middle` says that the binary phase ends there.
-/

namespace Retrace.Stream

/-- An index that is not negative is that of the list. -/
@[simp] theorem pointAt?_natCast (points : Stream) (i : Nat) :
    pointAt? points (i : Int) = points[i]? := by
  rw [pointAt?, if_pos (Int.natCast_nonneg i), Int.toNat_natCast]

/-! ## The middle of an interval -/

/-- The middle of an interval is in front of its right end. -/
theorem middle_lt_right {left right : Int} (h₀ : 0 ≤ left) (h : left < right) :
    middle left right < right := by
  rw [middle, Int.tdiv_eq_ediv_of_nonneg (by omega)]
  omega

/-- The middle of an empty interval is its right end, unless that has stepped below zero. -/
theorem middle_of_le {left right : Int} (h₀ : 0 ≤ left) (h : right ≤ left)
    (h' : left ≤ right + 1) : middle left right = max right 0 := by
  by_cases hneg : right < 0
  · obtain rfl : right = -1 := by omega
    obtain rfl : left = 0 := by omega
    rfl
  · rw [middle, Int.tdiv_eq_ediv_of_nonneg (by omega)]
    omega

/-! ## The halving on indices alone -/

/-- Where the halving of an index interval ends if it turns toward the end at indices below `k` and
toward the start at the others. -/
def settle (k : Nat) (left right : Int) : Int :=
  if h : left < right then
    have := left_le_middle h
    have := middle_le_right h
    if middle left right < k then settle k (middle left right + 1) right
    else settle k left (middle left right - 1)
  else
    middle left right
termination_by (right - left).toNat

/-- The halving comes down on the cut, or on the index in front of it. -/
theorem settle_bounds {k : Nat} (left right : Int) (h₀ : 0 ≤ left) (hlr : left ≤ right + 1)
    (hlk : left ≤ k) (hkr : k ≤ right + 1) :
    0 ≤ settle k left right ∧ (settle k left right = k ∨
      settle k left right + 1 = k ∧ (k < right ∨ right + 1 = (k : Int))) := by
  fun_induction settle k left right with
  | case1 left right h h₁ h₂ hlt ih =>
    have := middle_lt_right h₀ h
    exact ih (by omega) (by omega) (by omega) hkr
  | case2 left right h h₁ h₂ hge ih =>
    have := middle_lt_right h₀ h
    obtain ⟨hnn, hk | ⟨hk, hr⟩⟩ := ih h₀ (by omega) hlk (by omega)
    · exact ⟨hnn, Or.inl hk⟩
    · exact ⟨hnn, Or.inr ⟨hk, by omega⟩⟩
  | case3 left right h =>
    rw [middle_of_le h₀ (by omega) hlr]
    omega

/-- Where the binary phase ends in a stream of `n` points of which the first `k` lie before the
target and the others behind it. -/
def landing (k n : Nat) : Nat := (settle k 0 n).toNat

/-- The binary phase lands on the first point behind the target or one point before that, and the
latter only if there is a point behind the target. -/
theorem landing_cases {k n : Nat} (h : k ≤ n) :
    landing k n = k ∨ landing k n + 1 = k ∧ k < n := by
  have := settle_bounds (k := k) 0 n (by omega) (by omega) (by omega) (by omega)
  rw [landing]
  omega

/-- With more points before the target, the binary phase lands no earlier. -/
theorem landing_mono {k l n : Nat} (hkl : k ≤ l) (hl : l ≤ n) : landing k n ≤ landing l n := by
  rcases Nat.eq_or_lt_of_le hkl with rfl | hlt
  · exact Nat.le_refl _
  · have hk := landing_cases (k := k) (n := n) (by omega)
    have hl := landing_cases hl
    omega

/-- Over a whole stream it comes down where it lands. -/
theorem natCast_landing {k n : Nat} (h : k ≤ n) : (landing k n : Int) = settle k 0 n := by
  have := settle_bounds (k := k) 0 n (by omega) (by omega) (by omega) (by omega)
  rw [landing]
  omega

/-! ## What lies in front of a target -/

/-- In a stream where nothing behind the target comes before something in front of it, the points in
front of the target are the first ones. -/
theorem lt_countP_iff {points : Stream} {before : SequencePoint → Bool}
    (closed : points.Pairwise fun p q => before q = true → before p = true) {i : Nat}
    {p : SequencePoint} (hp : points[i]? = some p) :
    i < points.countP before ↔ before p = true := by
  induction points generalizing i with
  | nil => simp at hp
  | cons q rest ih =>
    obtain ⟨hq, hrest⟩ := List.pairwise_cons.1 closed
    by_cases hbefore : before q = true
    · rw [List.countP_cons_of_pos hbefore]
      cases i with
      | zero =>
        obtain rfl : q = p := by simpa using hp
        simp [hbefore]
      | succ i =>
        rw [← ih hrest (by simpa using hp)]
        omega
    · -- nothing behind this one is in front of the target, so that none is counted
      have hnone : ∀ r ∈ q :: rest, ¬ before r = true := by
        intro r hr
        rcases List.mem_cons.1 hr with rfl | hr
        · exact hbefore
        · exact fun h => hbefore (hq r hr h)
      rw [List.countP_eq_zero.2 hnone]
      have := hnone p (List.mem_of_getElem? hp)
      simp [this]

/-! ## The binary phase -/

/-- How the target cuts a stream: exactly the first `k` points lie before it, and what follows a point
behind it lies behind it too. -/
structure Cut (points : Stream) (turn : SequencePoint → Turn) (k : Nat) : Prop where
  later_iff : ∀ {i : Nat} {p}, points[i]? = some p → (turn p = .later ↔ i < k)
  earlier_of_lt : ∀ {i j : Nat} {p q}, i < j → points[i]? = some p → points[j]? = some q →
    turn p = .earlier → turn q = .earlier

/-- All points behind an index lie behind the target. -/
def EarlierFrom (points : Stream) (turn : SequencePoint → Turn) (index : Int) : Prop :=
  ∀ (i : Nat) q, index < i → points[i]? = some q → turn q = .earlier

/-- How the binary phase may end. -/
inductive Ending (points : Stream) (turn : SequencePoint → Turn) (k : Nat) : Probe → Prop
  /-- On the target. -/
  | met {i : Nat} {p : SequencePoint} (at_ : points[i]? = some p) (here : turn p = .here) :
      Ending points turn k ⟨i, p⟩
  /-- One index behind the point looked at last, which lies before the target. -/
  | behind {m : Nat} {p : SequencePoint} (at_ : points[m]? = some p) (later : turn p = .later)
      (le : k ≤ m + 2) (above : EarlierFrom points turn (m + 1)) :
      Ending points turn k ⟨(m + 1 : Nat), p⟩
  /-- One index before the point looked at last, which lies behind the target, or on the first
  point. -/
  | ahead {c m : Nat} {p : SequencePoint} (at_ : points[c]? = some p) (earlier : turn p = .earlier)
      (one_off : c = m + 1 ∨ c = 0 ∧ m = 0) (ge : m ≤ k) (le : k ≤ m + 1)
      (above : EarlierFrom points turn m) : Ending points turn k ⟨m, p⟩

/-- The binary phase ends, in one of the ways of `Ending`. The cut stays inside the index interval,
and what is behind the interval lies behind the target. -/
theorem probe_ending {points : Stream} {turn : SequencePoint → Turn} {k : Nat}
    (cut : Cut points turn k) (left right : Int) (current : SequencePoint) (h₀ : 0 ≤ left)
    (hlr : left ≤ right + 1) (hr : right ≤ points.length) (hlk : left ≤ k) (hkr : k ≤ right + 1)
    (above : EarlierFrom points turn right)
    (last : right ≤ left → Ending points turn k ⟨middle left right, current⟩) :
    ∃ p, probe points turn left right current = some p ∧ Ending points turn k p := by
  fun_induction probe points turn left right current with
  -- the index interval is inside of the stream, so that its middle is a point
  | case1 left right current h hp =>
    have h₁ := left_le_middle h
    have h₂ := middle_lt_right h₀ h
    obtain ⟨m, hm⟩ := Int.eq_ofNat_of_zero_le (Int.le_trans h₀ h₁)
    rw [hm, pointAt?_natCast, List.getElem?_eq_none_iff] at hp
    omega
  | case2 left right current h p hp h₁ _ hturn ih =>
    have h₂ := middle_lt_right h₀ h
    obtain ⟨m, hm⟩ := Int.eq_ofNat_of_zero_le (Int.le_trans h₀ h₁)
    rw [hm] at hp h₁ h₂ ih
    rw [pointAt?_natCast] at hp
    -- a point in front of the target is in front of the cut, and the interval goes on behind it
    have hmk : m < k := (cut.later_iff hp).1 hturn
    rw [hm]
    refine ih (by omega) (by omega) hr (by omega) hkr above fun hle => ?_
    obtain rfl : right = (m + 1 : Nat) := by omega
    rw [middle_of_le (by omega) hle (by omega), Int.max_eq_left (by omega)]
    exact .behind hp hturn (by omega) above
  | case3 left right current h p hp h₁ _ hturn ih =>
    have h₂ := middle_lt_right h₀ h
    obtain ⟨m, hm⟩ := Int.eq_ofNat_of_zero_le (Int.le_trans h₀ h₁)
    rw [hm] at hp h₁ h₂ ih
    rw [pointAt?_natCast] at hp
    have hmk : ¬ m < k := fun hlt => by
      rw [(cut.later_iff hp).2 hlt] at hturn
      cases hturn
    -- what follows a point behind the target is behind it too: this becomes the new invariant
    have above' : EarlierFrom points turn (m - 1 : Int) := by
      intro i q hi hq
      rcases Nat.eq_or_lt_of_le (show m ≤ i by omega) with rfl | hlt
      · rw [hp] at hq
        cases hq
        exact hturn
      · exact cut.earlier_of_lt hlt hp hq hturn
    rw [hm]
    refine ih h₀ (by omega) (by omega) hlk (by omega) above' fun hle => ?_
    obtain ⟨m', hm'⟩ := Int.eq_ofNat_of_zero_le (Int.le_max_right (m - 1 : Int) 0)
    rw [middle_of_le h₀ hle (by omega), hm']
    refine .ahead hp hturn (by omega) (by omega) (by omega) fun i q hi => ?_
    exact above' i q (by omega)
  | case4 left right current h p hp h₁ _ hturn =>
    obtain ⟨m, hm⟩ := Int.eq_ofNat_of_zero_le (Int.le_trans h₀ h₁)
    rw [hm, pointAt?_natCast] at hp
    rw [hm]
    exact ⟨_, rfl, .met hp hturn⟩
  | case5 left right current h => exact ⟨_, rfl, last (by omega)⟩

/-- If no point is on the target, the binary phase ends where `settle` says. -/
theorem probe_middle {points : Stream} {turn : SequencePoint → Turn} {k : Nat}
    (cut : Cut points turn k) (missed : ∀ p ∈ points, turn p ≠ .here) {left right : Int}
    {current : SequencePoint} {p : Probe} (h₀ : 0 ≤ left)
    (h : probe points turn left right current = some p) : p.middle = settle k left right := by
  fun_induction probe points turn left right current with
  | case1 => cases h
  -- `settle` takes the same turns, told by the cut instead of the points
  | case2 left right current hlt q hq h₁ h₂ hturn ih =>
    obtain ⟨m, hm⟩ := Int.eq_ofNat_of_zero_le (Int.le_trans h₀ h₁)
    rw [hm, pointAt?_natCast] at hq
    have hmk : m < k := (cut.later_iff hq).1 hturn
    rw [settle, dif_pos hlt, if_pos (by omega)]
    exact ih (by omega) h
  | case3 left right current hlt q hq h₁ h₂ hturn ih =>
    obtain ⟨m, hm⟩ := Int.eq_ofNat_of_zero_le (Int.le_trans h₀ h₁)
    rw [hm, pointAt?_natCast] at hq
    have hmk : ¬ m < k := fun hlt => by
      rw [(cut.later_iff hq).2 hlt] at hturn
      cases hturn
    rw [settle, dif_pos hlt, if_neg (by omega)]
    exact ih h₀ h
  | case4 left right current hlt q hq h₁ h₂ hturn =>
    obtain ⟨m, hm⟩ := Int.eq_ofNat_of_zero_le (Int.le_trans h₀ h₁)
    rw [hm, pointAt?_natCast] at hq
    exact absurd hturn (missed q (List.mem_of_getElem? hq))
  | case5 left right current hlt =>
    cases h
    rw [settle, dif_neg hlt]

/-- A boundary search walks from where its binary phase ended. -/
theorem boundary_eq_walk {points : Stream} {turn : SequencePoint → Turn} {k : Nat}
    (cut : Cut points turn k) (hne : points ≠ []) (hk : k ≤ points.length)
    (isBehind ahead reached : SequencePoint → Bool) :
    ∃ first p, probe points turn 0 points.length first = some p ∧ Ending points turn k p ∧
      boundary points turn isBehind ahead reached =
        if isBehind p.current then walkLater points ahead p.middle p.current
        else walkEarlier points reached p.middle p.current := by
  have hpos : 0 < points.length := List.length_pos_iff.2 hne
  have hlt : points.length / 2 < points.length := by omega
  have hmid : middle 0 points.length = (points.length / 2 : Nat) := by
    rw [middle, Int.tdiv_eq_ediv_of_nonneg (by omega)]
    omega
  obtain ⟨p, hprobe, hend⟩ := probe_ending cut 0 points.length points[points.length / 2]
    (by omega) (by omega) (by omega) (by omega) (by omega)
    (fun i q hi hq => by
      rw [List.getElem?_eq_none_iff.2 (by omega)] at hq
      cases hq)
    (fun hle => by omega)
  refine ⟨_, p, hprobe, hend, ?_⟩
  rw [boundary, hmid, pointAt?_natCast, List.getElem?_eq_getElem hlt]
  simp only [hprobe]

/-! ## The walk -/

/-- A walk toward the end passes the points that are ahead and stops on the last of them. -/
theorem walkLater_eq {points : Stream} {ahead : SequencePoint → Bool} {i l : Nat}
    {current : SequencePoint} (hc : ahead current = true) (hil : i ≤ l)
    (passed : ∀ j p, i < j → j ≤ l → points[j]? = some p → ahead p = true)
    (inside : l < points.length ∨ l = i)
    (stop : ∀ p, points[l + 1]? = some p → ahead p = false) :
    walkLater points ahead i current = some (l : Int) := by
  -- on the number of points that the walk still passes
  induction h : l - i generalizing i current with
  | zero =>
    obtain rfl : l = i := by omega
    rw [walkLater, if_pos hc]
    split
    · next hlt =>
      have hq : points[l + 1]? = some points[l + 1] := List.getElem?_eq_getElem (by omega)
      have hp : pointAt? points ((l : Int) + 1) = some points[l + 1] := by
        rw [← hq, ← pointAt?_natCast]
        rfl
      simp only [hp]
      rw [walkLater, if_neg (by simp [stop _ hq])]
      congr 1
      omega
    · rfl
  | succ d ih =>
    have hlt : i + 1 < points.length := by omega
    have hq : points[i + 1]? = some points[i + 1] := List.getElem?_eq_getElem hlt
    have hp : pointAt? points ((i : Int) + 1) = some points[i + 1] := by
      rw [← hq, ← pointAt?_natCast]
      rfl
    rw [walkLater, if_pos hc, if_pos (by omega)]
    simp only [hp]
    exact ih (i := i + 1) (passed _ _ (by omega) (by omega) hq) (by omega)
      (fun j p hj => passed j p (by omega)) (by omega) (by omega)

/-- A walk toward the start passes the points that are not reached and stops on the last of them. -/
theorem walkEarlier_eq {points : Stream} {reached : SequencePoint → Bool} {i l : Nat}
    {current : SequencePoint} (hc : reached current = false) (hli : l ≤ i)
    (inside : i ≤ points.length)
    (passed : ∀ j p, l ≤ j → j < i → points[j]? = some p → reached p = false)
    (stop : ∀ p, 0 < l → points[l - 1]? = some p → reached p = true) :
    walkEarlier points reached i current = some (l : Int) := by
  induction i generalizing current with
  | zero =>
    obtain rfl : l = 0 := by omega
    rw [walkEarlier, if_neg (by simp [hc]), if_neg (by omega)]
  | succ i ih =>
    have hq : points[i]? = some points[i] := List.getElem?_eq_getElem (by omega)
    have hi : ((i + 1 : Nat) : Int) - 1 = (i : Int) := by omega
    rw [walkEarlier, if_neg (by simp [hc]), if_pos (by omega), hi]
    simp only [pointAt?_natCast, hq]
    rcases Nat.eq_or_lt_of_le hli with rfl | hlt
    · -- the next point is already reached, so the walk steps back onto its own start
      rw [walkEarlier, if_pos (stop _ (by omega) hq)]
      rfl
    · exact ih (passed i _ (by omega) (by omega) hq) (by omega) (by omega)
        fun j p hj hji => passed j p hj (by omega)

end Retrace.Stream
