/-
# Elements grouped by their supports

Elements with the same support form a cluster. Clusters come with the least
conditioned first; those with equally many literals keep the order in which
they were met, and so do the elements of one cluster.
-/

import PlanNetwork.Support.Basic

namespace PlanNetwork

/-- The elements that share a support. -/
structure Cluster (α : Type u) where
  /-- The support they share. -/
  support : Support
  /-- The elements, in the order they were met. -/
  members : List α

namespace Cluster

/-- Add an element to the cluster of its support, or open one behind the others. -/
def add {α : Type u} (clusters : List (Cluster α)) (element : α) (support : Support) :
    List (Cluster α) :=
  match clusters with
  | [] => [⟨support, [element]⟩]
  | first :: rest =>
    if first.support.same support then { first with members := first.members ++ [element] } :: rest
    else first :: add rest element support

/-- The clusters of a list of elements with their supports. -/
def group {α : Type u} (elements : List (α × Support)) : List (Cluster α) :=
  (elements.foldl (fun clusters e => add clusters e.1 e.2) []).mergeSort
    fun a b => decide (a.support.literalCount ≤ b.support.literalCount)

end Cluster

end PlanNetwork
