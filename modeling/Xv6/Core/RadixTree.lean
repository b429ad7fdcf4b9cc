import Mathlib

/-!
# Radix trees stored in a graph of nodes

A radix tree of fixed depth lives in a store that gives every node an optional
child at each index.  Its nodes are collected with multiplicity, so a duplicate
free collection is exactly the statement that no node is reached along two
different paths.  Writing into one node then cannot be observed along any other
path, and splicing in one fresh node adds that node and nothing else.
-/

namespace Xv6.RadixTree

open List Option

variable {Node Index : Type*}
variable {child other : Node → Index → Option Node} {depth : ℕ}
  {node found parent fresh next : Node} {path : List Index} {slot index : Index}

def descend (child : Node → Index → Option Node) : List Index → Node → Option Node
  | [], node => some node
  | index :: path, node => (child node index).bind (descend child path)

@[simp]
theorem descend_nil (child : Node → Index → Option Node) (node : Node) :
    descend child [] node = some node := rfl

@[simp]
theorem descend_cons (child : Node → Index → Option Node) (index : Index)
    (path : List Index) (node : Node) :
    descend child (index :: path) node = (child node index).bind (descend child path) := rfl

theorem descend_append (child : Node → Index → Option Node)
    (first second : List Index) (node : Node) : descend child (first ++ second) node =
      (descend child first node).bind (descend child second) := by
  induction first generalizing node with
  | nil => rfl
  | cons index path ih =>
    simp only [cons_append, descend_cons, bind_assoc]
    congr 1
    funext next
    exact ih next

section Nodes

variable [Fintype Index]

/-- All nodes of the tree of the given depth, each once for every path that
reaches it. -/
def nodes (child : Node → Index → Option Node) : ℕ → Node → Multiset Node
  | 0, node => {node}
  | depth + 1, node => node ::ₘ ∑ index, ((child node index).elim 0 (nodes child depth))

def subtree (child : Node → Index → Option Node) (depth : ℕ) (node : Node)
    (index : Index) : Multiset Node :=
  (child node index).elim 0 (nodes child depth)

theorem nodes_zero (child : Node → Index → Option Node) (node : Node) :
    nodes child 0 node = {node} := rfl

theorem nodes_succ (child : Node → Index → Option Node) (depth : ℕ) (node : Node) :
    nodes child (depth + 1) node = node ::ₘ ∑ index, subtree child depth node index := rfl

theorem root_mem_nodes (child : Node → Index → Option Node) (depth : ℕ)
    (node : Node) : node ∈ nodes child depth node := by
  cases depth with
  | zero => simp [nodes]
  | succ depth => simp [nodes]

theorem mem_nodes_succ :
    found ∈ nodes child (depth + 1) node ↔
      found = node ∨ ∃ index next, child node index = some next ∧
        found ∈ nodes child depth next := by
  simp only [nodes, Multiset.mem_cons, Multiset.mem_sum, Finset.mem_univ, true_and]
  constructor
  · rintro (hroot | ⟨index, hi⟩)
    · exact Or.inl hroot
    · right
      cases hchild : child node index with
      | none => simp [hchild] at hi
      | some next => exact ⟨index, next, hchild, by simpa [hchild] using hi⟩
  · rintro (hroot | ⟨index, next, hchild, hf⟩)
    · exact Or.inl hroot
    · exact Or.inr ⟨index, by simpa [hchild] using hf⟩

/-- The nodes of a tree are those reached along a path no longer than its
depth. -/
theorem mem_nodes_of_descend (hlength : path.length ≤ depth)
    (hpath : descend child path node = some found) : found ∈ nodes child depth node := by
  induction path generalizing node depth with
  | nil =>
    simp only [descend_nil, some.injEq] at hpath
    rw [← hpath]
    exact root_mem_nodes child depth node
  | cons index path ih =>
    obtain ⟨depth, rfl⟩ : ∃ rest, depth = rest + 1 :=
      Nat.exists_eq_succ_of_ne_zero (by
        rintro rfl
        simp at hlength)
    simp only [descend_cons, bind_eq_some_iff] at hpath
    obtain ⟨next, hchild, hrest⟩ := hpath
    rw [mem_nodes_succ]
    exact Or.inr ⟨index, next, hchild, ih (Nat.le_of_succ_le_succ hlength) hrest⟩

/-- Nodes that look the same in two stores, wherever the tree has children, form
the same tree in both. -/
theorem nodes_congr (hsame : ∀ path found, path.length < depth →
      descend child path node = some found → other found = child found) :
    nodes other depth node = nodes child depth node := by
  induction depth generalizing node with
  | zero => rfl
  | succ depth ih =>
    have hroot : other node = child node := hsame [] node (Nat.succ_pos depth) rfl
    simp only [nodes, hroot]
    congr 1
    apply Finset.sum_congr rfl
    intro index _
    cases hchild : child node index with
    | none => rfl
    | some next =>
      apply ih
      intro path found hlength hpath
      exact hsame (index :: path) found (Nat.succ_lt_succ hlength) (by simp [hchild, hpath])

end Nodes

theorem descend_congr (depth : ℕ) (hsame : ∀ path found, path.length < depth →
      descend child path node = some found → other found = child found)
    (hlength : path.length ≤ depth) :
    descend other path node = descend child path node := by
  induction path generalizing node depth with
  | nil => rfl
  | cons index path ih =>
    obtain ⟨depth, rfl⟩ : ∃ rest, depth = rest + 1 :=
      Nat.exists_eq_succ_of_ne_zero (by
        rintro rfl
        simp at hlength)
    have hroot : other node = child node := hsame [] node (Nat.succ_pos depth) rfl
    simp only [descend_cons, hroot]
    cases hchild : child node index with
    | none => rfl
    | some next =>
      refine ih depth ?_ ?_
      · intro rest found hrest hpath
        exact hsame (index :: rest) found (Nat.succ_lt_succ hrest) (by simp [hchild, hpath])
      · exact Nat.le_of_succ_le_succ hlength

variable [Fintype Index]

/-- Distinctness splits: the root is not below itself, every subtree is
distinct, and different subtrees share nothing. -/
theorem nodup_nodes_succ (hnodup : (nodes child (depth + 1) node).Nodup) :
    (∀ index next, child node index = some next →
      node ∉ nodes child depth next ∧ (nodes child depth next).Nodup) ∧
    ∀ first second left right, first ≠ second →
      child node first = some left → child node second = some right →
      ∀ found ∈ nodes child depth left, found ∉ nodes child depth right := by
  classical
  rw [nodes, Multiset.nodup_cons] at hnodup
  obtain ⟨hroot, hbelow⟩ := hnodup
  constructor
  · intro index next hchild
    have hle : nodes child depth next ≤
        ∑ index, ((child node index).elim 0 (nodes child depth)) := by
      have hsingle := Finset.single_le_sum
        (f := fun index => (child node index).elim 0 (nodes child depth))
        (fun _ _ => Multiset.zero_le _) (Finset.mem_univ index)
      simpa [hchild] using hsingle
    exact ⟨fun hmem => hroot (Multiset.mem_of_le hle hmem), Multiset.nodup_of_le hle hbelow⟩
  · intro first second left right hne hleft hright found hf ho
    have hle : nodes child depth left + nodes child depth right ≤
        ∑ index, ((child node index).elim 0 (nodes child depth)) := by
      have hpair := Finset.sum_le_univ_sum_of_nonneg
        (f := fun index => (child node index).elim 0 (nodes child depth))
        (s := {first, second}) (fun _ => Multiset.zero_le _)
      rw [Finset.sum_pair hne] at hpair
      simpa [hleft, hright] using hpair
    have hdisjoint := (Multiset.nodup_add.mp (Multiset.nodup_of_le hle hbelow)).2.2
    exact Multiset.disjoint_left.mp hdisjoint hf ho

theorem descend_injective (hnodup : (nodes child depth node).Nodup)
    {first second : List Index} (hfst : first.length ≤ depth) (hsnd : second.length ≤ depth)
    (hleft : descend child first node = some found)
    (hright : descend child second node = some found) : first = second := by
  induction depth generalizing node first second with
  | zero =>
    rw [length_eq_zero_iff.mp (Nat.le_zero.mp hfst), length_eq_zero_iff.mp (Nat.le_zero.mp hsnd)]
  | succ depth ih =>
    obtain ⟨hroot, hpairs⟩ := nodup_nodes_succ hnodup
    cases first with
    | nil =>
      cases second with
      | nil => rfl
      | cons index path =>
        simp only [descend_nil, some.injEq] at hleft
        simp only [descend_cons, bind_eq_some_iff] at hright
        obtain ⟨next, hchild, hrest⟩ := hright
        have hmem := mem_nodes_of_descend (Nat.le_of_succ_le_succ hsnd) hrest
        rw [← hleft] at hmem
        exact absurd hmem (hroot index next hchild).1
    | cons index path =>
      simp only [descend_cons, bind_eq_some_iff] at hleft
      obtain ⟨next, hchild, hrest⟩ := hleft
      have hmem := mem_nodes_of_descend (Nat.le_of_succ_le_succ hfst) hrest
      cases second with
      | nil =>
        simp only [descend_nil, some.injEq] at hright
        rw [← hright] at hmem
        exact absurd hmem (hroot index next hchild).1
      | cons other rest =>
        simp only [descend_cons, bind_eq_some_iff] at hright
        obtain ⟨after, ho, hremaining⟩ := hright
        have hmemOther := mem_nodes_of_descend (Nat.le_of_succ_le_succ hsnd) hremaining
        by_cases hsame : index = other
        · subst hsame
          rw [hchild, some.injEq] at ho
          subst ho
          rw [ih (hroot index next hchild).2 (Nat.le_of_succ_le_succ hfst)
            (Nat.le_of_succ_le_succ hsnd) hrest hremaining]
        · exact absurd hmemOther (hpairs index other next after hsame hchild ho found hmem)

/-! ## Splicing in a fresh node -/

/-- `other` differs from `child` only by a new childless node `fresh` at index
`slot` of `parent`. -/
structure Spliced (child other : Node → Index → Option Node)
    (parent : Node) (slot : Index) (fresh : Node) : Prop where
  wasFree : child parent slot = none
  linked : other parent slot = some fresh
  childless : ∀ index, other fresh index = none
  sameNode : ∀ node, node ≠ parent → node ≠ fresh → other node = child node
  sameSlot : ∀ index, index ≠ slot → other parent index = child parent index

theorem nodes_childless (hnone : ∀ index, child node index = none) (depth : ℕ) :
    nodes child depth node = {node} := by
  cases depth with
  | zero => rfl
  | succ depth => simp [nodes, hnone]

theorem nodes_spliced_elsewhere
    (hspliced : Spliced child other parent slot fresh) (hpar : parent ∉ nodes child depth node)
    (hfresh : fresh ∉ nodes child depth node) :
    nodes other depth node = nodes child depth node := by
  apply nodes_congr
  intro path found hlength hpath
  have hmem := mem_nodes_of_descend (Nat.le_of_lt hlength) hpath
  apply hspliced.sameNode
  · rintro rfl
    exact hpar hmem
  · rintro rfl
    exact hfresh hmem

theorem descend_spliced_elsewhere
    (hspliced : Spliced child other parent slot fresh) (hpar : parent ∉ nodes child depth node)
    (hfresh : fresh ∉ nodes child depth node) (hlength : path.length ≤ depth) :
    descend other path node = descend child path node := by
  refine descend_congr depth ?_ hlength
  intro rest found hrest hpath
  have hmem := mem_nodes_of_descend (Nat.le_of_lt hrest) hpath
  apply hspliced.sameNode
  · rintro rfl
    exact hpar hmem
  · rintro rfl
    exact hfresh hmem

/-- The children of the root collect `extra` more nodes when one of them
does. -/
private theorem sum_children_add (child other : Node → Index → Option Node)
    (depth : ℕ) (root : Node) (slot : Index) (extra : Multiset Node)
    (hslot : (other root slot).elim 0 (nodes other depth) =
      extra + (child root slot).elim 0 (nodes child depth))
    (hrest : ∀ index, index ≠ slot → (other root index).elim 0 (nodes other depth) =
        (child root index).elim 0 (nodes child depth)) :
    ∑ index, ((other root index).elim 0 (nodes other depth)) =
      extra + ∑ index, ((child root index).elim 0 (nodes child depth)) := by
  classical
  have hterm : ∀ index : Index, (other root index).elim 0 (nodes other depth) =
        (if index = slot then extra else 0) + (child root index).elim 0 (nodes child depth) := by
    intro index
    by_cases hi : index = slot
    · subst hi
      rw [if_pos rfl, hslot]
    · rw [if_neg hi, zero_add, hrest index hi]
  simp only [hterm, Finset.sum_add_distrib, Finset.sum_ite_eq', Finset.mem_univ, if_true]

theorem fresh_below {root : Node} (hfresh : fresh ∉ nodes child (depth + 1) root)
    (hchild : child root index = some next) : fresh ∉ nodes child depth next :=
  fun hmem => hfresh (mem_nodes_succ.mpr (Or.inr ⟨index, next, hchild, hmem⟩))

section
variable {child other : Node → Index → Option Node} {parent fresh : Node} {slot : Index}
  (hspliced : Spliced child other parent slot fresh) {depth : ℕ} {root : Node}
include hspliced

theorem Spliced.sameRoot
    (hnodup : (nodes child (depth + 1) root).Nodup) (hfresh : fresh ∉ nodes child (depth + 1) root)
    (hchild : child root index = some next) (hpar : parent ∈ nodes child depth next) :
    other root = child root := by
  apply hspliced.sameNode
  · rintro rfl
    exact ((nodup_nodes_succ hnodup).1 index next hchild).1 hpar
  · rintro rfl
    exact hfresh (root_mem_nodes child (depth + 1) root)

variable {path : List Index} (hlength : path.length < depth)
  (hpath : descend child path root = some parent)
  (hnodup : (nodes child depth root).Nodup) (hfresh : fresh ∉ nodes child depth root)
include hlength hpath hnodup hfresh

/-- Splicing a fresh childless node under a node of a duplicate-free tree adds
exactly that node. -/
theorem nodes_spliced : nodes other depth root = fresh ::ₘ nodes child depth root := by
  induction path generalizing root depth with
  | nil =>
    obtain ⟨depth, rfl⟩ : ∃ rest, depth = rest + 1 := Nat.exists_eq_succ_of_ne_zero (by omega)
    simp only [descend_nil, some.injEq] at hpath
    subst hpath
    obtain ⟨hroot, _⟩ := nodup_nodes_succ hnodup
    have hsum := sum_children_add child other depth root slot {fresh} (by
        rw [hspliced.linked, hspliced.wasFree]
        simpa using nodes_childless hspliced.childless depth)
      (by
        intro index hi
        rw [hspliced.sameSlot index hi]
        cases hchild : child root index with
        | none => rfl
        | some next =>
          exact nodes_spliced_elsewhere hspliced (hroot index next hchild).1
            (fresh_below hfresh hchild))
    rw [nodes, nodes, hsum, Multiset.singleton_add, Multiset.cons_swap]
  | cons index path ih =>
    obtain ⟨depth, rfl⟩ : ∃ rest, depth = rest + 1 := Nat.exists_eq_succ_of_ne_zero (by omega)
    have hlength' : path.length < depth := Nat.lt_of_succ_lt_succ hlength
    simp only [descend_cons, bind_eq_some_iff] at hpath
    obtain ⟨next, hchild, hrest⟩ := hpath
    obtain ⟨hroot, hpairs⟩ := nodup_nodes_succ hnodup
    have hpar : parent ∈ nodes child depth next :=
      mem_nodes_of_descend (Nat.le_of_lt hlength') hrest
    have hsame := hspliced.sameRoot hnodup hfresh hchild hpar
    have hsum := sum_children_add child other depth root index {fresh} (by
        rw [hsame, hchild]
        simpa using ih hlength' hrest (hroot index next hchild).2 (fresh_below hfresh hchild))
      (by
        intro position hpos
        rw [hsame]
        cases hafter : child root position with
        | none => rfl
        | some after =>
          apply nodes_spliced_elsewhere hspliced _ (fresh_below hfresh hafter)
          exact hpairs index position next after (Ne.symm hpos) hchild hafter parent hpar)
    rw [nodes, nodes, hsum, Multiset.singleton_add, Multiset.cons_swap]

/-- After a splice every path other than that of the new node ends where it
did. -/
theorem descend_spliced_of_ne {target : List Index} (htarget : target.length ≤ depth)
    (hne : target ≠ path ++ [slot]) : descend other target root = descend child target root := by
  induction path generalizing root depth target with
  | nil =>
    cases target with
    | nil => rfl
    | cons index target =>
      obtain ⟨depth, rfl⟩ : ∃ rest, depth = rest + 1 := Nat.exists_eq_succ_of_ne_zero (by omega)
      simp only [descend_nil, some.injEq] at hpath
      subst hpath
      obtain ⟨hroot, _⟩ := nodup_nodes_succ hnodup
      by_cases hi : index = slot
      · -- The path goes on below the childless new node.
        subst hi
        cases target with
        | nil => exact absurd rfl hne
        | cons next target => simp [hspliced.linked, hspliced.wasFree, hspliced.childless]
      · simp only [descend_cons, hspliced.sameSlot index hi]
        cases hchild : child root index with
        | none => rfl
        | some next =>
          exact descend_spliced_elsewhere hspliced (hroot index next hchild).1
            (fresh_below hfresh hchild) (Nat.le_of_succ_le_succ htarget)
  | cons index path ih =>
    cases target with
    | nil => rfl
    | cons position target =>
      obtain ⟨depth, rfl⟩ : ∃ rest, depth = rest + 1 := Nat.exists_eq_succ_of_ne_zero (by omega)
      have hlength' : path.length < depth := Nat.lt_of_succ_lt_succ hlength
      have htarget' : target.length ≤ depth := Nat.le_of_succ_le_succ htarget
      simp only [descend_cons, bind_eq_some_iff] at hpath
      obtain ⟨next, hchild, hrest⟩ := hpath
      obtain ⟨hroot, hpairs⟩ := nodup_nodes_succ hnodup
      have hpar : parent ∈ nodes child depth next :=
        mem_nodes_of_descend (Nat.le_of_lt hlength') hrest
      have hsame := hspliced.sameRoot hnodup hfresh hchild hpar
      simp only [descend_cons, hsame]
      cases hafter : child root position with
      | none => rfl
      | some after =>
        by_cases hpos : position = index
        · subst hpos
          rw [hchild, some.injEq] at hafter
          subst hafter
          apply ih hlength' hrest (hroot position next hchild).2
            (fresh_below hfresh hchild) htarget'
          rintro rfl
          exact hne rfl
        · apply descend_spliced_elsewhere hspliced _ (fresh_below hfresh hafter) htarget'
          exact hpairs index position next after (Ne.symm hpos) hchild hafter parent hpar

theorem descend_spliced_fresh : descend other (path ++ [slot]) root = some fresh := by
  have hreach : descend other path root = some parent := by
    rw [descend_spliced_of_ne hspliced hlength hpath hnodup hfresh
      (Nat.le_of_lt hlength) (by simp), hpath]
  rw [descend_append, hreach]
  simp [hspliced.linked]

end

attribute [irreducible] nodes

end Xv6.RadixTree
