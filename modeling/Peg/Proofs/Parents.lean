import Mathlib.Data.List.Nodup
import Peg.Match.Linked
import Peg.Proofs.PostOrder

/-!
# Links to parents

The links of a `LinkedForest` are written while it is built: a node is made with the next key and
without a parent, and when the node above it is made, the link is written into it. Nothing else is
ever written, and the links that are written later belong to other nodes. So in the end the links
describe the tree (`LinkedForest.links_describe`): the parent of a node is the node that has it
among its children, and going up from a node meets exactly the nodes in whose trees it lies.

* `LinkedForest.Made` is what holds of the links and the nodes after a part of a forest was built.
  It is shown along the fold over the forest (`foldAll_made`), with which building agrees.
* Keys grow from a node to its parent, so a walk up is over after as many steps as there are keys
  above (`LinkedForest.climb_iff`), and the bound on the steps never cuts it off.
-/

namespace Peg

variable {Id : Type}

namespace Node

/-! ## Nodes of a tree -/

/-- A node is in a forest if it is in one of its trees. -/
theorem mem_preorderAll {n : Node Id} {ns : List (Node Id)} :
    n ∈ preorderAll ns ↔ ∃ r ∈ ns, n ∈ preorder r := by
  induction ns with
  | nil => simp [preorderAll]
  | cons r rest ih => simp [preorderAll, ih]

/-- A node is in a tree if it is the root or below the root. -/
theorem mem_preorder {n r : Node Id} :
    n ∈ preorder r ↔ n = r ∨ n ∈ preorderAll r.children := by
  obtain ⟨key, id, span, children⟩ := r
  simp [preorder]

/-- The root of a tree is in it. -/
theorem self_mem_preorder (n : Node Id) : n ∈ preorder n := mem_preorder.2 (Or.inl rfl)

/-- The roots of a forest are in it. -/
theorem mem_preorderAll_of_mem {n : Node Id} {ns : List (Node Id)} (h : n ∈ ns) :
    n ∈ preorderAll ns :=
  mem_preorderAll.2 ⟨n, h, self_mem_preorder n⟩

mutual

/-- The nodes inside a node of a tree are nodes of the tree. -/
theorem mem_preorder_trans {n p r : Node Id} (hn : n ∈ preorder p) (hp : p ∈ preorder r) :
    n ∈ preorder r := by
  obtain ⟨key, id, span, children⟩ := r
  rcases mem_preorder.1 hp with rfl | hbelow
  · exact hn
  · exact mem_preorder.2 (Or.inr (mem_preorderAll_trans hn hbelow))

/-- What is below a node of a forest is in the forest. -/
theorem mem_preorderAll_trans {n p : Node Id} {ns : List (Node Id)} (hn : n ∈ preorder p)
    (hp : p ∈ preorderAll ns) : n ∈ preorderAll ns := by
  cases ns with
  | nil => cases hp
  | cons r rest =>
    rw [preorderAll, List.mem_append] at hp ⊢
    exact hp.imp (mem_preorder_trans hn) (mem_preorderAll_trans hn)

end

/-- A child is below its parent. -/
theorem child_mem_preorder {c p : Node Id} (h : c ∈ p.children) : c ∈ preorder p :=
  mem_preorder.2 (Or.inr (mem_preorderAll_of_mem h))

mutual

/-- A node below the root of a tree is a child of a node of the tree. -/
theorem exists_parent {n r : Node Id} (h : n ∈ preorder r) :
    n = r ∨ ∃ p ∈ preorder r, n ∈ p.children := by
  obtain ⟨key, id, span, children⟩ := r
  rcases mem_preorder.1 h with rfl | hbelow
  · exact Or.inl rfl
  · refine Or.inr ?_
    rcases exists_parentAll hbelow with hchild | ⟨p, hp, hchild⟩
    · exact ⟨_, self_mem_preorder _, hchild⟩
    · exact ⟨p, mem_preorder.2 (Or.inr hp), hchild⟩

/-- Every node of a forest is a root or the child of a node. -/
theorem exists_parentAll {n : Node Id} {ns : List (Node Id)} (h : n ∈ preorderAll ns) :
    n ∈ ns ∨ ∃ p ∈ preorderAll ns, n ∈ p.children := by
  cases ns with
  | nil => cases h
  | cons r rest =>
    rw [preorderAll, List.mem_append] at h
    simp only [preorderAll, List.mem_append, List.mem_cons]
    rcases h with h | h
    · rcases exists_parent h with rfl | ⟨p, hp, hchild⟩
      · exact Or.inl (Or.inl rfl)
      · exact Or.inr ⟨p, Or.inl hp, hchild⟩
    · rcases exists_parentAll h with hroot | ⟨p, hp, hchild⟩
      · exact Or.inl (Or.inr hroot)
      · exact Or.inr ⟨p, Or.inr hp, hchild⟩

end

mutual

/-- The nodes of a tree in preorder are the matches of its match in preorder. -/
theorem preorder_toMatch (d : Nat) (n : Node Id) :
    n.preorder.map toMatch = (n.toMatch.preorderFrom d).map Prod.snd := by
  obtain ⟨key, id, span, children⟩ := n
  simp only [preorder, toMatch, Match.preorderFrom, List.map_cons]
  rw [preorderAll_toMatch (d + 1) children]

/-- The nodes in pre-order are made for the matches in pre-order. -/
theorem preorderAll_toMatch (d : Nat) (ns : List (Node Id)) :
    (preorderAll ns).map toMatch = (Match.preorderAllFrom d (toMatchAll ns)).map Prod.snd := by
  cases ns with
  | nil => rfl
  | cons n rest =>
    simp only [preorderAll, toMatchAll, Match.preorderAllFrom, List.map_append]
    rw [preorder_toMatch d n, preorderAll_toMatch d rest]

end

/-! ## Writing links -/

/-- The links after the key of a parent was written into those of its children, as `Node.create`
does it. -/
def linkAll (key : Nat) (ns : List (Node Id)) (links : Array (Option Nat)) : Array (Option Nat) :=
  ns.foldl (fun links child => links.setIfInBounds child.key (some key)) links

/-- Linking nodes to a parent links the first one and then the others. -/
theorem linkAll_cons (key : Nat) (n : Node Id) (ns : List (Node Id))
    (links : Array (Option Nat)) :
    linkAll key (n :: ns) links = linkAll key ns (links.setIfInBounds n.key (some key)) := rfl

/-- Linking changes links and adds none. -/
theorem size_linkAll (key : Nat) (ns : List (Node Id)) (links : Array (Option Nat)) :
    (linkAll key ns links).size = links.size := by
  induction ns generalizing links with
  | nil => rfl
  | cons n rest ih => rw [linkAll_cons, ih, Array.size_setIfInBounds]

/-- Linking nodes to a parent changes their links, and leaves the others alone. -/
theorem getElem?_linkAll (key : Nat) (ns : List (Node Id)) (links : Array (Option Nat)) {k : Nat}
    (hk : k < links.size) :
    (linkAll key ns links)[k]? = if k ∈ ns.map Node.key then some (some key) else links[k]? := by
  induction ns generalizing links with
  | nil => rfl
  | cons n rest ih =>
    rw [linkAll_cons, ih _ (by rwa [Array.size_setIfInBounds])]
    by_cases hlater : k ∈ rest.map Node.key
    · rw [if_pos hlater, List.map_cons, if_pos (List.mem_cons_of_mem _ hlater)]
    · rw [if_neg hlater]
      by_cases hnow : n.key = k
      · rw [if_pos (by simp [hnow]), ← hnow, Array.getElem?_setIfInBounds_self_of_lt (hnow ▸ hk)]
      · rw [if_neg (by simpa [Ne.symm hnow] using hlater), Array.getElem?_setIfInBounds_ne hnow]

end Node

namespace LinkedForest

open Node

/-! ## What building leaves -/

/-- What holds of the links `after` the trees of `ns` were built, where the links were `before`. -/
structure Made (before : Array (Option Nat)) (ns : List (Node Id))
    (after : Array (Option Nat)) : Prop where
  /-- Links are added, -/
  size_le : before.size ≤ after.size
  /-- and those of other nodes are left alone. -/
  kept : ∀ k < before.size, after[k]? = before[k]?
  /-- The keys of the nodes are new. -/
  within : ∀ n ∈ preorderAll ns, before.size ≤ n.key ∧ n.key < after.size
  /-- No two nodes have one key. -/
  nodup : ((preorderAll ns).map key).Nodup
  /-- The roots have no parent so far. -/
  root : ∀ n ∈ ns, after[n.key]? = some none
  /-- A child is linked to its parent, -/
  child : ∀ p ∈ preorderAll ns, ∀ c ∈ p.children, after[c.key]? = some (some p.key)
  /-- which was made after it. -/
  upward : ∀ p ∈ preorderAll ns, ∀ c ∈ p.children, c.key < p.key

variable {before between after : Array (Option Nat)} {n : Node Id} {ns : List (Node Id)}

/-- Building no trees leaves the links as they are. -/
theorem Made.nil : Made before ([] : List (Node Id)) before where
  size_le := Nat.le_refl _
  kept _ _ := rfl
  within _ h := by cases h
  nodup := List.nodup_nil
  root _ h := by cases h
  child _ h := by cases h
  upward _ h := by cases h

/-- Trees are built after a first one. The links of the first one are there already, so they are
left alone. -/
theorem Made.cons (hn : Made before [n] between) (hns : Made between ns after) :
    Made before (n :: ns) after := by
  have htree : ∀ p, p ∈ preorderAll [n] ↔ p ∈ preorder n := fun p => by simp [preorderAll]
  have hfirst : ∀ p ∈ preorder n, before.size ≤ p.key ∧ p.key < between.size := fun p hp =>
    hn.within p ((htree p).2 hp)
  constructor
  case size_le => exact Nat.le_trans hn.size_le hns.size_le
  case kept =>
    intro k hk
    exact (hns.kept k (Nat.lt_of_lt_of_le hk hn.size_le)).trans (hn.kept k hk)
  case within =>
    intro p hp
    have := hn.size_le
    have := hns.size_le
    rw [preorderAll, List.mem_append] at hp
    rcases hp with hp | hp
    · have := hfirst p hp
      omega
    · have := hns.within p hp
      omega
  case nodup =>
    rw [preorderAll, List.map_append, List.nodup_append]
    refine ⟨by simpa [preorderAll] using hn.nodup, hns.nodup, ?_⟩
    rintro _ ha _ hb rfl
    obtain ⟨p, hp, rfl⟩ := List.mem_map.1 ha
    obtain ⟨q, hq, hkey⟩ := List.mem_map.1 hb
    have := hfirst p hp
    have := hns.within q hq
    omega
  case root =>
    intro r hr
    rcases List.mem_cons.1 hr with rfl | hr
    · rw [hns.kept _ (hfirst r (self_mem_preorder r)).2]
      exact hn.root r List.mem_cons_self
    · exact hns.root r hr
  case child =>
    intro p hp c hc
    rw [preorderAll, List.mem_append] at hp
    rcases hp with hp | hp
    · have hin : c ∈ preorder n := mem_preorder_trans (child_mem_preorder hc) hp
      rw [hns.kept _ (hfirst c hin).2]
      exact hn.child p ((htree p).2 hp) c hc
    · exact hns.child p hp c hc
  case upward =>
    intro p hp c hc
    rw [preorderAll, List.mem_append] at hp
    rcases hp with hp | hp
    · exact hn.upward p ((htree p).2 hp) c hc
    · exact hns.upward p hp c hc

/-- A node is made over trees. Their roots get a link; those of all other nodes are left alone, as
they have one already. -/
theorem Made.create (h : Made before ns after) (id : Id) (span : Span) :
    Made before [⟨after.size, id, span, ns⟩] ((linkAll after.size ns after).push none) := by
  have hsize : ((linkAll after.size ns after).push none).size = after.size + 1 := by
    rw [Array.size_push, size_linkAll]
  have hlink : ∀ k < after.size, ((linkAll after.size ns after).push none)[k]? =
      if k ∈ ns.map key then some (some after.size) else after[k]? := fun k hk => by
    rw [Array.getElem?_push_lt (by rwa [size_linkAll]), ← Array.getElem?_eq_getElem,
      getElem?_linkAll _ _ _ hk]
  have htree : ∀ p, p ∈ preorderAll [(⟨after.size, id, span, ns⟩ : Node Id)] ↔
      p = ⟨after.size, id, span, ns⟩ ∨ p ∈ preorderAll ns := fun p => by
    simp [preorderAll, preorder]
  constructor
  case size_le =>
    have := h.size_le
    omega
  case kept =>
    intro k hk
    rw [hlink k (Nat.lt_of_lt_of_le hk h.size_le), if_neg, h.kept k hk]
    intro hroot
    obtain ⟨r, hr, rfl⟩ := List.mem_map.1 hroot
    have := h.within r (mem_preorderAll_of_mem hr)
    omega
  case within =>
    intro p hp
    have := h.size_le
    rcases (htree p).1 hp with rfl | hp
    · simp only
      omega
    · have := h.within p hp
      omega
  case nodup =>
    have hnew : after.size ∉ (preorderAll ns).map key := fun hmem => by
      obtain ⟨p, hp, hkey⟩ := List.mem_map.1 hmem
      have := h.within p hp
      omega
    simpa [preorderAll, preorder] using ⟨by simpa using hnew, h.nodup⟩
  case root =>
    intro r hr
    obtain rfl := List.mem_singleton.1 hr
    rw [Array.getElem?_eq_some_iff]
    refine ⟨by rw [hsize]; exact Nat.lt_succ_self _, ?_⟩
    simp [Array.getElem_push, size_linkAll]
  case child =>
    intro p hp c hc
    rcases (htree p).1 hp with rfl | hp
    · have hroot : c ∈ ns := hc
      rw [hlink _ (h.within c (mem_preorderAll_of_mem hroot)).2, if_pos (List.mem_map_of_mem hroot)]
    · have hin : c ∈ preorderAll ns := mem_preorderAll_trans (child_mem_preorder hc) hp
      rw [hlink _ (h.within c hin).2, if_neg, h.child p hp c hc]
      -- a root has no link, but this node has one
      intro hroot
      obtain ⟨r, hr, hkey⟩ := List.mem_map.1 hroot
      have := h.root r hr
      rw [hkey, h.child p hp c hc] at this
      cases this
  case upward =>
    intro p hp c hc
    rcases (htree p).1 hp with rfl | hp
    · exact (h.within c (mem_preorderAll_of_mem hc)).2
    · exact h.upward p hp c hc

mutual

/-- Building a tree links its nodes as they should be, and the tree has the shape of the match. -/
theorem fold_made (t : Match Id) (links : Array (Option Nat)) :
    Made links [(Match.fold Node.create t links).1] (Match.fold Node.create t links).2 ∧
      (Match.fold Node.create t links).1.toMatch = t := by
  obtain ⟨id, span, children⟩ := t
  obtain ⟨hmade, hshape⟩ := foldAll_made children links
  exact ⟨hmade.create id span, congrArg (Match.mk id span) hshape⟩

/-- Folding over a forest makes nodes for its matches, with links that fit. -/
theorem foldAll_made (forest : List (Match Id)) (links : Array (Option Nat)) :
    Made links (Match.foldAll Node.create forest links).1
        (Match.foldAll Node.create forest links).2 ∧
      toMatchAll (Match.foldAll Node.create forest links).1 = forest := by
  cases forest with
  | nil => exact ⟨Made.nil, rfl⟩
  | cons t rest =>
    obtain ⟨hfirst, hshape⟩ := fold_made t links
    obtain ⟨hrest, hshapes⟩ := foldAll_made rest (Match.fold Node.create t links).2
    exact ⟨hfirst.cons hrest, congrArg₂ List.cons hshape hshapes⟩

end

/-- What holds of the linked forest of a forest. -/
theorem ofMatches_made (forest : List (Match Id)) :
    Made #[] (ofMatches forest).roots (ofMatches forest).parents ∧
      toMatchAll (ofMatches forest).roots = forest := by
  rw [ofMatches, Match.build_eq_foldAll]
  exact foldAll_made forest #[]

/-! ## Going up -/

section walk

variable {f : LinkedForest Id} (h : Made #[] f.roots f.parents)

include h

/-- The parent of a child is found. -/
theorem parentKey?_child {p c : Node Id} (hp : p ∈ f.nodes) (hc : c ∈ p.children) :
    f.parentKey? c.key = some p.key := by
  rw [parentKey?, h.child p hp c hc, Option.join_some]

/-- A root has no parent. -/
theorem parentKey?_root {r : Node Id} (hr : r ∈ f.roots) : f.parentKey? r.key = none := by
  rw [parentKey?, h.root r hr, Option.join_some]

/-- A node that has a parent is among its children. -/
theorem exists_of_parentKey? {n : Node Id} {k : Nat} (hn : n ∈ f.nodes)
    (hk : f.parentKey? n.key = some k) : ∃ p ∈ f.nodes, p.key = k ∧ n ∈ p.children := by
  rcases exists_parentAll hn with hroot | ⟨p, hp, hc⟩
  · rw [parentKey?_root h hroot] at hk
    cases hk
  · rw [parentKey?_child h hp hc] at hk
    exact ⟨p, hp, Option.some.inj hk, hc⟩

/-- Going up from a node meets the nodes in whose trees it lies, if no link is left to follow after
the steps that may be taken. -/
theorem climb_iff {target steps : Nat} {n : Node Id} (hn : n ∈ f.nodes)
    (henough : f.parents.size ≤ n.key + steps) :
    f.climb target steps n.key = true ↔ ∃ a ∈ f.nodes, a.key = target ∧ n ∈ a.preorder := by
  induction steps generalizing n with
  | zero =>
    have := h.within n hn
    omega
  | succ steps ih =>
    rw [climb, Bool.or_eq_true, beq_iff_eq]
    constructor
    · rintro (hkey | hup)
      · exact ⟨n, hn, hkey, self_mem_preorder n⟩
      · cases hk : f.parentKey? n.key with
        | none => simp [hk] at hup
        | some k =>
          obtain ⟨p, hp, rfl, hc⟩ := exists_of_parentKey? h hn hk
          have := h.upward p hp n hc
          simp only [hk] at hup
          obtain ⟨a, ha, hkey, hin⟩ := (ih hp (by omega)).1 hup
          exact ⟨a, ha, hkey, mem_preorder_trans (child_mem_preorder hc) hin⟩
    · rintro ⟨a, ha, hkey, hin⟩
      rcases exists_parent hin with rfl | ⟨p, hpa, hc⟩
      · exact Or.inl hkey
      · have hp : p ∈ f.nodes := mem_preorderAll_trans hpa ha
        have := h.upward p hp n hc
        rw [parentKey?_child h hp hc]
        exact Or.inr ((ih hp (by omega)).2 ⟨a, ha, hkey, hpa⟩)

/-- Going up ends. -/
theorem acc_parentKey? {n : Node Id} (hn : n ∈ f.nodes) :
    Acc (fun above below => f.parentKey? below = some above) n.key := by
  induction hleft : f.parents.size - n.key using Nat.strongRecOn generalizing n with
  | _ left ih =>
    refine Acc.intro _ fun k hk => ?_
    obtain ⟨p, hp, rfl, hc⟩ := exists_of_parentKey? h hn hk
    have := h.upward p hp n hc
    have := h.within p hp
    exact ih (f.parents.size - p.key) (by omega) hp rfl

end walk

/-- The nodes and links of a linked forest are those of the trees of `forest`. -/
structure Describes (f : LinkedForest Id) (forest : List (Match Id)) : Prop where
  /-- The nodes form the trees of the forest, -/
  shape : toMatchAll f.roots = forest
  /-- so in pre-order they are made for its matches in pre-order. -/
  order : f.nodes.map toMatch = (Match.preorder forest).map Prod.snd
  /-- Nodes in two places are told apart by their keys. -/
  distinct : (f.nodes.map key).Nodup
  /-- The parent of a node is the one that has it among its children. -/
  parent : ∀ n ∈ f.nodes, ∀ k, f.parent? n = some k ↔ ∃ p ∈ f.nodes, p.key = k ∧ n ∈ p.children
  /-- The roots are the nodes without a parent. -/
  root : ∀ n ∈ f.nodes, f.parent? n = none ↔ n ∈ f.roots
  /-- Going up from parent to parent ends. -/
  ends : ∀ n ∈ f.nodes, Acc (fun above below => f.parentKey? below = some above) n.key
  /-- A node contains itself and the nodes below it, and no others. -/
  contains : ∀ a ∈ f.nodes, ∀ b ∈ f.nodes, f.contains a b = true ↔ b ∈ a.preorder
  /-- A walk up with more steps finds no more. -/
  enough : ∀ a ∈ f.nodes, ∀ b ∈ f.nodes, ∀ steps ≥ f.parents.size,
    f.climb a.key steps b.key = f.contains a b

/-- The links of the linked forest of a forest describe it. -/
theorem links_describe (forest : List (Match Id)) : (ofMatches forest).Describes forest := by
  obtain ⟨h, hshape⟩ := ofMatches_made forest
  -- a node is found by its key
  have hkey : ∀ a ∈ (ofMatches forest).nodes, ∀ b ∈ (ofMatches forest).nodes,
      a.key = b.key → a = b :=
    fun a ha b hb => List.inj_on_of_nodup_map h.nodup ha hb
  have hclimb : ∀ a ∈ (ofMatches forest).nodes, ∀ b ∈ (ofMatches forest).nodes,
      ∀ steps ≥ (ofMatches forest).parents.size,
        ((ofMatches forest).climb a.key steps b.key = true ↔ b ∈ a.preorder) := by
    intro a ha b hb steps hsteps
    rw [climb_iff h hb (by omega)]
    constructor
    · rintro ⟨a', ha', heq, hin⟩
      exact hkey a' ha' a ha heq ▸ hin
    · exact fun hin => ⟨a, ha, rfl, hin⟩
  constructor
  case shape => exact hshape
  case order =>
    rw [nodes, preorderAll_toMatch 0, hshape, Match.preorder]
  case distinct => exact h.nodup
  case parent =>
    intro n hn k
    refine ⟨exists_of_parentKey? h hn, ?_⟩
    rintro ⟨p, hp, rfl, hc⟩
    exact parentKey?_child h hp hc
  case root =>
    intro n hn
    refine ⟨fun hnone => ?_, parentKey?_root h⟩
    rcases exists_parentAll hn with hroot | ⟨p, hp, hc⟩
    · exact hroot
    · have hsome : (ofMatches forest).parent? n = some p.key := parentKey?_child h hp hc
      rw [hnone] at hsome
      cases hsome
  case ends => exact fun n hn => acc_parentKey? h hn
  case contains => exact fun a ha b hb => hclimb a ha b hb _ (Nat.le_refl _)
  case enough =>
    intro a ha b hb steps hsteps
    rw [Bool.eq_iff_iff, hclimb a ha b hb steps hsteps, LinkedForest.contains,
      hclimb a ha b hb _ (Nat.le_refl _)]

end LinkedForest

end Peg
