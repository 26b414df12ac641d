import Peg.Match.Build

/-!
# Linked forests

A linked forest has a node for every match of a forest, and every node knows its parent. Nodes are
told apart by their keys, which are given out in the order in which nodes are made, so two nodes
with the same tag and span are still two nodes. The link of a node to its parent is written when
the parent is made.

Whether a node lies inside another one is found by going up from parent to parent. Parents are made
after their children, so keys grow on the way up and the walk is over after as many steps as there
are nodes.
-/

namespace Peg

/-- A node of a linked forest. -/
structure Node (Id : Type) where
  /-- What tells this node apart from others. -/
  key : Nat
  /-- The tag. -/
  id : Id
  /-- The stretch of the source. -/
  span : Span
  /-- The nodes inside this one. -/
  children : List (Node Id)

/-- A forest of nodes with links to parents. -/
structure LinkedForest (Id : Type) where
  /-- The nodes that have no parent, in order. -/
  roots : List (Node Id)
  /-- The key of the parent of each node, by key. -/
  parents : Array (Option Nat)

namespace Node

variable {Id : Type}

mutual

/-- A node and all nodes inside it, in pre-order. -/
def preorder : Node Id → List (Node Id)
  | ⟨key, id, span, children⟩ => ⟨key, id, span, children⟩ :: preorderAll children

/-- The nodes of a list of trees, in pre-order. -/
def preorderAll : List (Node Id) → List (Node Id)
  | [] => []
  | n :: rest => preorder n ++ preorderAll rest

end

mutual

/-- The match that a node was made for. -/
def toMatch : Node Id → Match Id
  | ⟨_, id, span, children⟩ => ⟨id, span, toMatchAll children⟩

/-- The matches that nodes were made for. -/
def toMatchAll : List (Node Id) → List (Match Id)
  | [] => []
  | n :: rest => toMatch n :: toMatchAll rest

end

/-- Makes a node with the next key, and links its children to it. -/
def create (id : Id) (span : Span) (children : List (Node Id)) :
    StateM (Array (Option Nat)) (Node Id) := fun parents =>
  let key := parents.size
  let linked := children.foldl (fun links child => links.setIfInBounds child.key (some key)) parents
  (⟨key, id, span, children⟩, linked.push none)

end Node

namespace LinkedForest

variable {Id : Type}

/-- The linked forest of a forest of matches. -/
def ofMatches (forest : List (Match Id)) : LinkedForest Id :=
  match (Match.build Node.create forest).run #[] with
  | (roots, parents) => ⟨roots, parents⟩

/-- All nodes in pre-order. -/
def nodes (f : LinkedForest Id) : List (Node Id) := Node.preorderAll f.roots

/-- The key of the parent of the node with the given key. -/
def parentKey? (f : LinkedForest Id) (key : Nat) : Option Nat := (f.parents[key]?).join

/-- The key of the parent of a node. -/
def parent? (f : LinkedForest Id) (n : Node Id) : Option Nat := f.parentKey? n.key

/-- Whether a walk up from `key`, over at most `steps` links, meets `target`. -/
def climb (f : LinkedForest Id) (target : Nat) : Nat → Nat → Bool
  | 0, key => key == target
  | steps + 1, key =>
    key == target ||
      match f.parentKey? key with
      | some parent => f.climb target steps parent
      | none => false

/-- Whether the second node is the first one or lies inside it. -/
def contains (f : LinkedForest Id) (outer inner : Node Id) : Bool :=
  f.climb outer.key f.parents.size inner.key

/-- The forest after a root is given up: its children become roots and have no parent any more. -/
def release (f : LinkedForest Id) (root : Node Id) : LinkedForest Id where
  roots := f.roots.flatMap fun n => if n.key = root.key then n.children else [n]
  parents := f.parents.map fun parent => if parent = some root.key then none else parent

/-- What the links say about a node: its parent and the nodes it contains, both by their place in
pre-order. -/
structure Links (Id : Type) where
  /-- The node. -/
  node : Node Id
  /-- The place of its parent. -/
  parent : Option Nat
  /-- The places of the nodes it contains. -/
  contained : List Nat

/-- What the links say about every node, in pre-order. -/
def links (f : LinkedForest Id) : List (Links Id) :=
  let all := f.nodes
  all.map fun n =>
    { node := n
      parent := (f.parent? n).bind fun key => all.findIdx? (·.key == key)
      contained := (List.range all.length).filter fun i => all[i]?.any (f.contains n) }

/-- The children of a root that was given up, each with whether it still has a parent. -/
def orphans (f : LinkedForest Id) (root : Node Id) : List (Id × Bool) :=
  root.children.map fun child => (child.id, ((f.release root).parent? child).isSome)

end LinkedForest

end Peg
