import Retrace.Proofs.Session.Inquiries
import Retrace.Proofs.Session.Selection
import Retrace.Proofs.Stream.Source

/-!
# Sanitized streams

The search over source positions takes for granted that points are in the order of their starts. A
frontend promises nothing of the kind, so its points are sanitized before they are searched.

* `Stream.InSourceOrder.eq_of_startingAt` : points in the order of their starts are determined by
  which of them start where, and in which order (`Stream.startingAt`). So there is only one way to
  sanitize points (`Stream.eq_sanitized_iff`);
* `Stream.startingAt_sanitized` : sorting keeps the order of the points that start at one position,
  as they are a sorted part of the stream already;
* `Session.Faithful.reconstructed_informed` : what a session has at hand when it takes the covering
  run of a span are the frontend's points, sanitized.

`Session.sanitized_in_source_order` says this of streams and of sessions.
-/

open scoped List

namespace Retrace

namespace Stream

variable {points points' part : Stream} {p : SequencePoint} {position : LinePosition}

/-! ## Visible points -/

/-- The visible points are those that are not hidden. -/
theorem mem_visible_iff : p ∈ points.visible ↔ p ∈ points ∧ p.isHidden = false := by
  rw [visible, List.mem_filter, Bool.not_eq_true']

/-- A visible point is there as often as before, a hidden one never. -/
theorem count_visible (points : Stream) (p : SequencePoint) :
    points.visible.count p = if p.isHidden then 0 else points.count p := by
  split
  · next hhidden =>
    apply List.count_eq_zero_of_not_mem
    intro hmem
    rw [(mem_visible_iff.1 hmem).2] at hhidden
    cases hhidden
  · next hshown => exact List.count_filter (by simpa using hshown)

/-- The visible points are the longest part of a stream without hidden ones. -/
theorem sublist_visible_iff :
    part <+ points.visible ↔ part <+ points ∧ ∀ p ∈ part, p.isHidden = false := by
  constructor
  · intro h
    exact ⟨h.trans List.filter_sublist, fun p hp => (mem_visible_iff.1 (h.subset hp)).2⟩
  · rintro ⟨hpart, hshown⟩
    have hkept : part.visible = part := List.filter_eq_self.2 fun p hp => by simp [hshown p hp]
    rw [← hkept]
    exact hpart.filter _

/-! ## Points that start at one position -/

/-- The points that start at a position, in the given order. -/
def startingAt (points : Stream) (position : LinePosition) : Stream :=
  points.filter fun p => p.start = position

/-- The points at a position are those that start there. -/
theorem mem_startingAt_iff : p ∈ points.startingAt position ↔ p ∈ points ∧ p.start = position := by
  rw [startingAt, List.mem_filter, decide_eq_true_eq]

/-- A point in front is the first one at its own start. -/
theorem startingAt_cons_self (p : SequencePoint) (points : Stream) :
    startingAt (p :: points) p.start = p :: points.startingAt p.start :=
  List.filter_cons_of_pos (decide_eq_true rfl)

/-- It is not there at any other position. -/
theorem startingAt_cons_of_ne (h : p.start ≠ position) :
    startingAt (p :: points) position = points.startingAt position :=
  List.filter_cons_of_neg (by simpa using h)

/-- Streams with the same points at every position have the same points. -/
theorem mem_of_startingAt (h : ∀ position, points.startingAt position = points'.startingAt position)
    (hp : p ∈ points) : p ∈ points' := by
  have hmem : p ∈ points.startingAt p.start := mem_startingAt_iff.2 ⟨hp, rfl⟩
  rw [h] at hmem
  exact (mem_startingAt_iff.1 hmem).1

/-- Points in the order of their starts are determined by which of them start where, and in which
order. -/
theorem InSourceOrder.eq_of_startingAt (horder : points.InSourceOrder)
    (horder' : points'.InSourceOrder)
    (h : ∀ position, points.startingAt position = points'.startingAt position) :
    points = points' := by
  induction points generalizing points' with
  | nil =>
    symm
    apply List.eq_nil_iff_forall_not_mem.2
    intro q hq
    exact absurd (mem_of_startingAt (fun position => (h position).symm) hq) List.not_mem_nil
  | cons p rest ih =>
    obtain ⟨hfirst, hrest⟩ := List.pairwise_cons.1 horder
    have hp : p ∈ points' := mem_of_startingAt h List.mem_cons_self
    obtain ⟨q, rest', rfl⟩ := List.exists_cons_of_ne_nil (List.ne_nil_of_mem hp)
    obtain ⟨hfirst', hrest'⟩ := List.pairwise_cons.1 horder'
    -- both lists begin with a point that starts first
    have hstart : p.start = q.start := by
      apply LinePosition.le_antisymm
      · have hq : q ∈ p :: rest :=
          mem_of_startingAt (fun position => (h position).symm) List.mem_cons_self
        rcases List.mem_cons.1 hq with rfl | hq
        · exact LinePosition.le_refl _
        · exact hfirst q hq
      · rcases List.mem_cons.1 hp with rfl | hp
        · exact LinePosition.le_refl _
        · exact hfirst' p hp
    have hhere := h p.start
    rw [startingAt_cons_self, hstart, startingAt_cons_self] at hhere
    obtain ⟨rfl, hsame⟩ := List.cons.inj hhere
    have htails : ∀ position, startingAt rest position = startingAt rest' position := by
      intro position
      by_cases hposition : p.start = position
      · rw [← hposition]
        exact hsame
      · have hthere := h position
        rwa [startingAt_cons_of_ne hposition, startingAt_cons_of_ne hposition] at hthere
    rw [ih hrest hrest' htails]

/-! ## Sanitized streams -/

/-- Putting points in order loses none of the visible ones. -/
theorem perm_sanitized (points : Stream) : points.sanitized.Perm points.visible :=
  List.mergeSort_perm _ _

/-- The order of starts is transitive. -/
theorem start_le_trans (p q r : SequencePoint) (hpq : decide (p.start ≤ q.start))
    (hqr : decide (q.start ≤ r.start)) : decide (p.start ≤ r.start) :=
  decide_eq_true (LinePosition.le_trans (of_decide_eq_true hpq) (of_decide_eq_true hqr))

/-- Any two starts can be compared. -/
theorem start_le_total (p q : SequencePoint) :
    decide (p.start ≤ q.start) || decide (q.start ≤ p.start) := by
  rw [Bool.or_eq_true, decide_eq_true_eq, decide_eq_true_eq]
  exact LinePosition.le_total p.start q.start

/-- What is put in order is in order. -/
theorem inSourceOrder_sanitized (points : Stream) : points.sanitized.InSourceOrder :=
  (List.pairwise_mergeSort start_le_trans start_le_total points.visible).imp of_decide_eq_true

/-- No hidden point is left. -/
theorem shown_of_mem_sanitized (h : p ∈ points.sanitized) : p.isHidden = false :=
  (mem_visible_iff.1 ((perm_sanitized points).mem_iff.1 h)).2

/-- To put points in order twice is to do it once. -/
theorem sanitized_sanitized (points : Stream) : points.sanitized.sanitized = points.sanitized :=
  (inSourceOrder_sanitized points).sanitized_eq fun _ hp => shown_of_mem_sanitized hp

/-- A visible point is there as often as before, a hidden one never. -/
theorem count_sanitized (points : Stream) (p : SequencePoint) :
    points.sanitized.count p = if p.isHidden then 0 else points.count p := by
  rw [(perm_sanitized points).count_eq, count_visible]

/-- Points that start at one position stay in their order. -/
theorem startingAt_sanitized (points : Stream) (position : LinePosition) :
    points.sanitized.startingAt position = points.visible.startingAt position := by
  have hsorted : (points.visible.startingAt position).Pairwise
      fun p q => decide (p.start ≤ q.start) := by
    apply List.pairwise_of_forall_mem_list
    intro p hp q hq
    rw [(mem_startingAt_iff.1 hp).2, (mem_startingAt_iff.1 hq).2]
    exact decide_eq_true (LinePosition.le_refl position)
  -- a sorted part of the stream is still a part of it after sorting
  have hpart : points.visible.startingAt position <+ points.sanitized :=
    List.sublist_mergeSort start_le_trans start_le_total hsorted List.filter_sublist
  have hall : (points.visible.startingAt position).startingAt position =
      points.visible.startingAt position := by
    rw [startingAt, startingAt, List.filter_filter]
    simp only [Bool.and_self]
  have hsub : points.visible.startingAt position <+ points.sanitized.startingAt position := by
    rw [← hall]
    exact hpart.filter _
  exact (hsub.eq_of_length ((perm_sanitized points).filter _).length_eq.symm).symm

/-- There is one way to sanitize points: to put the visible ones in the order of their starts, and
to keep the order of those that start at one position. -/
theorem eq_sanitized_iff : points' = points.sanitized ↔ points'.InSourceOrder ∧
    ∀ position, points'.startingAt position = points.visible.startingAt position := by
  constructor
  · rintro rfl
    exact ⟨inSourceOrder_sanitized points, startingAt_sanitized points⟩
  · rintro ⟨horder, hstarts⟩
    apply horder.eq_of_startingAt (inSourceOrder_sanitized points)
    intro position
    rw [hstarts, startingAt_sanitized]

end Stream

/-- Points that come from a frontend are sanitized. -/
theorem Frontend.exists_stream_eq {ν : Type} (f : Frontend ν) (unit : Nat) (token : Token) :
    ∃ points : Stream, f.stream unit token = points.sanitized := by
  unfold Frontend.stream
  split
  · next streams _ =>
    cases streams.get? token with
    | none => exact ⟨[], List.mergeSort_nil.symm⟩
    | some points => exact ⟨points, rfl⟩
  · exact ⟨[], List.mergeSort_nil.symm⟩

namespace Session

variable {ν : Type} {s : Session ν} {provider : SymbolProvider} {unit : Nat} {token : Token}

/-- The session that has both streams of a function at hand. -/
def informed (s : Session ν) (provider : SymbolProvider) (unit : Nat) (token : Token) : Session ν :=
  (s.ensureAuthored provider token).ensureReconstructed unit token

/-- Once both streams are known, the reconstructed one is that of the frontend, in order. -/
theorem Faithful.reconstructed_informed (h : s.Faithful) (hs : s.symbols = some provider)
    (unit : Nat) (token : Token) :
    (s.informed provider unit token).reconstructed unit token = s.frontend.stream unit token := by
  have hauthored := continues_ensureAuthored hs token
  have hall := hauthored.trans (continues_ensureReconstructed _ unit token)
  rw [informed, (hall.faithful h).reconstructed_eq (mem_sanitized_ensureReconstructed _ unit token),
    hall.frontend]

/-- What a request makes of a span of a function, once both streams of the function are at hand.
Without an authored stream nothing is searched. -/
theorem throughSymbols_informed {span : LineSpan} {function : FunctionInfo}
    (hs : s.symbols = some provider)
    (hfunction : s.frontend.functionAt? unit span.fromOne = some function)
    (htoken : function.token = some token) :
    s.throughSymbols unit span = (none, s.counted.ensureAuthored provider token) ∨
      s.throughSymbols unit span =
        (s.counted.informed provider unit token).relocated unit span function.instructions
          token := by
  rw [throughSymbols_eq, hs]
  dsimp only
  rw [hfunction]
  dsimp only
  rw [htoken]
  dsimp only
  unfold lookUp
  dsimp only
  split
  · exact Or.inl rfl
  · exact Or.inr rfl

/-- Sanitizing points puts the visible ones in the order of their starts, each as often as it was
there, and keeps the order of those that start at one position. These facts determine the result,
and sanitizing it once more changes nothing. Without being sorted, the visible points are the
longest part of the points that has no hidden one.

Whatever a frontend answers, and whatever a session was asked before: the points that the covering
run of a span is taken from are sanitized ones of the frontend, so that they are in the order that
the search for the start of the run relies on. -/
theorem sanitized_in_source_order :
    (∀ points : Stream,
      points.sanitized.InSourceOrder ∧
      (∀ p, points.sanitized.count p = if p.isHidden then 0 else points.count p) ∧
      (∀ position, points.sanitized.startingAt position = points.visible.startingAt position) ∧
      (∀ other : Stream, other.InSourceOrder →
        (∀ position, other.startingAt position = points.visible.startingAt position) →
          other = points.sanitized) ∧
      points.sanitized.sanitized = points.sanitized ∧
      ∀ part : Stream, part <+ points.visible ↔ part <+ points ∧ ∀ p ∈ part, p.isHidden = false) ∧
    ∀ {ν : Type} {s : Session ν} {provider : SymbolProvider} {unit : Nat} {span : LineSpan}
      {function : FunctionInfo} {token : Token},
      s.Reachable → s.symbols = some provider →
        s.frontend.functionAt? unit span.fromOne = some function → function.token = some token →
        let t := s.counted.informed provider unit token
        (s.throughSymbols unit span = (none, s.counted.ensureAuthored provider token) ∨
          s.throughSymbols unit span = t.relocated unit span function.instructions token) ∧
        t.reconstructed unit token = s.frontend.stream unit token ∧
        (∃ points : Stream, t.reconstructed unit token = points.sanitized) ∧
        (t.reconstructed unit token).InSourceOrder := by
  constructor
  · intro points
    refine ⟨points.inSourceOrder_sanitized, points.count_sanitized, points.startingAt_sanitized, ?_,
      points.sanitized_sanitized, fun part => Stream.sublist_visible_iff⟩
    intro other horder hstarts
    exact Stream.eq_sanitized_iff.2 ⟨horder, hstarts⟩
  · intro ν s provider unit span function token h hs hfunction htoken t
    have hfaithful : s.counted.Faithful := (continues_inquiries s _).faithful h.faithful
    have hhanded : t.reconstructed unit token = s.frontend.stream unit token :=
      hfaithful.reconstructed_informed hs unit token
    obtain ⟨points, hpoints⟩ := s.frontend.exists_stream_eq unit token
    refine ⟨throughSymbols_informed hs hfunction htoken, hhanded, ⟨points, hhanded.trans hpoints⟩,
      ?_⟩
    rw [hhanded, hpoints]
    exact points.inSourceOrder_sanitized

/-- Five points in the order of their offsets, one of them hidden. Two others start at one position.
-/
def shuffledPoints : Stream :=
  [⟨0, 4, ⟨20, 4⟩, ⟨20, 10⟩, none, false⟩, .hidden 4 6 none, ⟨6, 8, ⟨12, 8⟩, ⟨12, 20⟩, none, false⟩,
    ⟨8, 10, ⟨12, 0⟩, ⟨12, 30⟩, none, false⟩, ⟨10, 12, ⟨12, 8⟩, ⟨12, 9⟩, none, false⟩]

/-- The points that start at one position change places with others, but not with each other. A
session whose frontend answers with these points takes covering runs from the sorted ones. -/
theorem sanitized_in_source_order_of_shuffled :
    let sorted : Stream := [⟨8, 10, ⟨12, 0⟩, ⟨12, 30⟩, none, false⟩,
      ⟨6, 8, ⟨12, 8⟩, ⟨12, 20⟩, none, false⟩, ⟨10, 12, ⟨12, 8⟩, ⟨12, 9⟩, none, false⟩,
      ⟨0, 4, ⟨20, 4⟩, ⟨20, 10⟩, none, false⟩]
    let s := ofFunction shuffledPoints shuffledPoints [0]
    let provider : SymbolProvider := fun _ => .ok (some shuffledPoints)
    ¬ shuffledPoints.InSourceOrder ∧ s.Reachable ∧ s.symbols = some provider ∧
      shuffledPoints.sanitized = sorted ∧ sorted.sanitized = sorted ∧
      (s.counted.informed provider 0 ⟨0x06000001⟩).reconstructed 0 ⟨0x06000001⟩ = sorted := by
  intro sorted s provider
  obtain ⟨hpoints, hsessions⟩ := sanitized_in_source_order
  obtain ⟨-, -, -, -, hagain, -⟩ := hpoints shuffledPoints
  have hstarts (position : LinePosition) :
      sorted.startingAt position = shuffledPoints.visible.startingAt position := by
    -- only the points at these two positions move past others
    by_cases hlast : ⟨20, 4⟩ = position
    · subst hlast
      decide
    · by_cases hfirst : ⟨12, 0⟩ = position
      · subst hfirst
        decide
      · simp [sorted, Stream.startingAt, shuffledPoints, Stream.visible, SequencePoint.hidden,
          List.filter_cons, hlast, hfirst]
  have hsorted : shuffledPoints.sanitized = sorted :=
    (Stream.eq_sanitized_iff.2 ⟨by decide, hstarts⟩).symm
  rw [hsorted] at hagain
  have hreachable : s.Reachable := .opened rfl
  have hfunction : s.frontend.functionAt? 0 (LineSpan.mk ⟨0, 0⟩ ⟨0, 1⟩).fromOne =
      some ⟨some ⟨0x06000001⟩, [0]⟩ := rfl
  obtain ⟨-, hhanded, -⟩ := hsessions hreachable rfl hfunction rfl
  refine ⟨by decide, hreachable, rfl, hsorted, hagain, ?_⟩
  rw [hhanded]
  exact hsorted

end Session

end Retrace
