import Retrace.Proofs.File.Component
import Mathlib.Data.List.Induction

/-!
# Ways out of a directory

A path that is followed from a directory may leave it. `Route` says how far: components amount to so
many directories up, or to the root, and to names from there (`trace_eq_follow`). Where this leads
is below the directory if and only if the names begin with what was left of the directory
(`Route.below_follow_iff`). A route that never leaves the directory (`Route.Stays`) ends below it
unless it has no names, and everything it passes through is the directory or below it
(`trace_of_stays`).
-/

namespace Retrace

/-- The location is below the directory, in it or further down. -/
def FileLocation.Below (directory location : FileLocation) : Prop :=
  ∃ names, names ≠ [] ∧ location = directory ++ names

/-- What is below a directory is behind it by at least one name. -/
theorem FileLocation.below_iff {directory location : FileLocation} :
    Below directory location ↔ directory <+: location ∧ directory.length < location.length := by
  constructor
  · rintro ⟨names, hne, rfl⟩
    have hpos := List.length_pos_iff.2 hne
    rw [List.length_append]
    exact ⟨List.prefix_append directory names, by omega⟩
  · rintro ⟨⟨names, rfl⟩, hlength⟩
    rw [List.length_append] at hlength
    exact ⟨names, List.length_pos_iff.1 (by omega), rfl⟩

instance (directory location : FileLocation) : Decidable (directory.Below location) :=
  decidable_of_iff _ FileLocation.below_iff.symm

namespace Path

variable {c : Component} {cs front back : List Component}

/-! ## Routes -/

/-- What components amount to, from any directory. -/
structure Route where
  /-- How many directories up they lead first, if not to the root. -/
  up : Option Nat := some 0
  /-- The names of the entries that they lead to from there. -/
  names : FileLocation := []

namespace Route

/-- The route with one more component. -/
def next (r : Route) : Component → Route
  | .root => ⟨none, []⟩
  | .current => r
  | .parent => if r.names = [] then { r with up := r.up.map (· + 1) }
    else { r with names := r.names.dropLast }
  | .name text => { r with names := r.names ++ [text] }

/-- The part of a directory that a route stays in before it comes to its names. -/
def base (r : Route) (directory : FileLocation) : FileLocation :=
  match r.up with
  | none => []
  | some n => directory.take (directory.length - n)

/-- The part of a directory that a route leaves. -/
def left (r : Route) (directory : FileLocation) : FileLocation :=
  match r.up with
  | none => directory
  | some n => directory.drop (directory.length - n)

/-- Where a route leads to from a directory. -/
def follow (r : Route) (directory : FileLocation) : FileLocation := r.base directory ++ r.names

/-- The route does not leave the directory that it is followed from. -/
def Stays (r : Route) : Prop := r.up = some 0

instance (r : Route) : Decidable r.Stays := inferInstanceAs (Decidable (r.up = some 0))

/-- What a route stays in and what it leaves make up the directory. -/
theorem base_append_left (r : Route) (directory : FileLocation) :
    r.base directory ++ r.left directory = directory := by
  unfold base left
  split
  · rfl
  · exact List.take_append_drop _ _

/-- One more component leads on from where the route leads to. -/
theorem follow_next (r : Route) (directory : FileLocation) (c : Component) :
    (r.next c).follow directory = c.lead (r.follow directory) := by
  obtain ⟨up, names⟩ := r
  cases c with
  | root => rfl
  | current => rfl
  | name text => exact (List.append_assoc _ _ _).symm
  | parent =>
    by_cases hnames : names = []
    · -- no name is left to take back, so that the route leaves one more directory
      subst hnames
      cases up with
      | none => rfl
      | some n =>
        have hup : (next ⟨some n, []⟩ .parent).follow directory =
            directory.take (directory.length - (n + 1)) ++ [] := rfl
        have hbefore : follow ⟨some n, []⟩ directory =
            directory.take (directory.length - n) ++ [] := rfl
        rw [hup, hbefore, List.append_nil, List.append_nil, Component.lead,
          List.dropLast_eq_take, List.length_take, List.take_take]
        congr 1
        omega
    · have hdown : next ⟨up, names⟩ .parent = ⟨up, names.dropLast⟩ := if_neg hnames
      rw [hdown]
      exact (List.dropLast_append_of_ne_nil hnames).symm

/-- Where a route leads is below the directory if and only if its names begin with what it left of
the directory, and go on behind that. -/
theorem below_follow_iff (r : Route) (directory : FileLocation) :
    FileLocation.Below directory (r.follow directory) ↔
      FileLocation.Below (r.left directory) r.names := by
  unfold FileLocation.Below follow
  refine exists_congr fun names => and_congr_right fun _ => ?_
  have hsplit : directory ++ names = r.base directory ++ (r.left directory ++ names) := by
    rw [← List.append_assoc, base_append_left]
  rw [hsplit]
  exact List.append_right_inj _

/-- A route that stays in the directory ends below it unless it has no names. -/
theorem Stays.below_follow_iff {r : Route} (h : r.Stays) (directory : FileLocation) :
    FileLocation.Below directory (r.follow directory) ↔ r.names ≠ [] := by
  have hleft : r.left directory = [] := by
    rw [left, show r.up = some 0 from h]
    exact List.drop_length
  rw [r.below_follow_iff, hleft]
  constructor
  · rintro ⟨names, hne, heq⟩
    rwa [heq]
  · exact fun hne => ⟨r.names, hne, rfl⟩

/-- A route that does not leave its directory leads to its names in it. -/
theorem Stays.follow_eq {r : Route} (h : r.Stays) (directory : FileLocation) :
    r.follow directory = directory ++ r.names := by
  have hbase : r.base directory = directory := by
    rw [base, show r.up = some 0 from h]
    exact List.take_length
  rw [follow, hbase]

/-- A route that was left once stays left. -/
theorem stays_of_next {r : Route} (h : (r.next c).Stays) : r.Stays := by
  obtain ⟨up, names⟩ := r
  unfold Stays at h ⊢
  cases c with
  | root => cases h
  | current => exact h
  | name text => exact h
  | parent =>
    by_cases hnames : names = []
    · have hnext : next ⟨up, names⟩ .parent = ⟨up.map (· + 1), names⟩ := if_pos hnames
      rw [hnext] at h
      cases up with
      | none => cases h
      | some n => cases h
    · have hnext : next ⟨up, names⟩ .parent = ⟨up, names.dropLast⟩ := if_neg hnames
      rwa [hnext] at h

end Route

/-- The route of components. -/
def route (components : List Component) : Route := components.foldl Route.next {}

/-- The route of components is built up from the first one to the last. -/
theorem route_concat (cs : List Component) (c : Component) :
    route (cs ++ [c]) = (route cs).next c := by
  rw [route, List.foldl_append]
  rfl

/-- Components lead where their route does. -/
theorem trace_eq_follow (directory : FileLocation) (cs : List Component) :
    trace directory cs = (route cs).follow directory := by
  induction cs using List.reverseRecOn with
  | nil =>
    have hfollow : (route []).follow directory = directory.take directory.length ++ [] := rfl
    rw [hfollow, List.take_length, List.append_nil]
    rfl
  | append_singleton cs c ih =>
    rw [route_concat, Route.follow_next, ← ih]
    exact trace_append directory cs [c]

/-- A route that does not leave its directory in the end has never left it. -/
theorem stays_of_append (h : (route (front ++ back)).Stays) : (route front).Stays := by
  induction back using List.reverseRecOn with
  | nil => rwa [List.append_nil] at h
  | append_singleton back c ih =>
    rw [← List.append_assoc, route_concat] at h
    exact ih (Route.stays_of_next h)

/-- Components that lead neither up nor to the root stay in the directory. -/
theorem stays_of_forall (h : ∀ c ∈ cs, c ≠ .parent ∧ c ≠ .root) : (route cs).Stays := by
  induction cs using List.reverseRecOn with
  | nil => rfl
  | append_singleton cs c ih =>
    obtain ⟨hfront, hc⟩ := List.forall_mem_append.1 h
    obtain ⟨hparent, hroot⟩ := hc c (List.mem_singleton_self c)
    rw [route_concat]
    cases c with
    | root => exact absurd rfl hroot
    | parent => exact absurd rfl hparent
    | current => exact ih hfront
    | name text => exact ih hfront

/-- On a route that stays in the directory, everything is the directory or below it. -/
theorem trace_of_stays (h : (route cs).Stays) (hfront : front <+: cs) (directory : FileLocation) :
    trace directory front = directory ++ (route front).names := by
  obtain ⟨back, rfl⟩ := hfront
  rw [trace_eq_follow, (stays_of_append h).follow_eq]

end Path

end Retrace
