/-!
# The function a syntax node belongs to

Some nodes of a reconstructed syntax tree are annotated with a function. The function of a node is
the annotation of its nearest annotated ancestor, the node itself included. Parents are given as a
relation that need not come from a tree, so the search gives up after a fixed number of nodes.
-/

namespace Retrace.Syntax

/-- How many nodes are inspected at most. -/
def inspectionLimit : Nat := 1000

/-- The nearest annotation among the first `limit` nodes of the chain of ancestors, and how many
nodes were inspected. -/
def nearestWithin {ν φ : Type} (parent : ν → Option ν) (functionOf : ν → Option φ) :
    Nat → ν → Option φ × Nat
  | 0, _ => (none, 0)
  | limit + 1, node =>
    match functionOf node with
    | some f => (some f, 1)
    | none =>
      match parent node with
      | none => (none, 1)
      | some above =>
        let (found, inspected) := nearestWithin parent functionOf limit above
        (found, inspected + 1)

/-- The function that a node belongs to, and how many nodes were inspected to find it. -/
def enclosingFunction {ν φ : Type} (parent : ν → Option ν) (functionOf : ν → Option φ) (node : ν) :
    Option φ × Nat :=
  nearestWithin parent functionOf inspectionLimit node

end Retrace.Syntax
