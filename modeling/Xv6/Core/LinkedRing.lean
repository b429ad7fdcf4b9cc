import Mathlib

/-!
# Doubly linked rings

A circular doubly linked list through a head node, as two maps of pointers that are
changed one at a time.  `Linked` says what the pointers along a list of nodes are; the
splices that take a node out of the ring and put it behind the head keep them, and a scan
in either direction is a search through the list.
-/

namespace Xv6.LinkedRing

open Function List Nat

variable {fuel : ℕ}

/-- The pointers of the nodes; `none` is the head. -/
structure Links (α : Type*) where
  next : Option α → Option α
  prev : Option α → Option α

variable {α : Type*}

def Links.flip (links : Links α) : Links α := ⟨links.prev, links.next⟩

/-- From `first` along `list` to `last`, every pointer has its counterpart. -/
def Linked (links : Links α) : Option α → List α → Option α → Prop
  | first, [], last => links.next first = last ∧ links.prev last = first
  | first, x :: list, last =>
    links.next first = some x ∧ links.prev (some x) = first ∧ Linked links (some x) list last

/-- The nodes behind the head, in order. -/
structure Ring (links : Links α) (order : List α) : Prop where
  linked : Linked links none order none
  nodup : order.Nodup

section
variable {links other : Links α} {first last : Option α} {list : List α}

theorem linked_append {front : List α} {x : α} {back : List α} :
    Linked links first (front ++ x :: back) last ↔
      Linked links first front (some x) ∧ Linked links (some x) back last := by
  induction front generalizing first with
  | nil => rw [nil_append, Linked, Linked, and_assoc]
  | cons y front ih => rw [cons_append, Linked, Linked, ih, and_assoc, and_assoc]

theorem Linked.flip (hlinked : Linked links first list last) :
    Linked links.flip last list.reverse first := by
  induction list generalizing first with
  | nil => exact ⟨hlinked.2, hlinked.1⟩
  | cons x list ih =>
    obtain ⟨hnext, hprev, hrest⟩ := hlinked
    rw [reverse_cons, linked_append]
    exact ⟨ih hrest, hprev, hnext⟩

theorem Linked.congr (hlinked : Linked links first list last)
    (hnext : ∀ node, node = first ∨ (∃ x ∈ list, node = some x) → other.next node = links.next node)
    (hprev : ∀ node, node = last ∨ (∃ x ∈ list, node = some x) →
      other.prev node = links.prev node) : Linked other first list last := by
  induction list generalizing first with
  | nil =>
    refine ⟨?_, ?_⟩
    · rw [hnext first (Or.inl rfl), hlinked.1]
    · rw [hprev last (Or.inl rfl), hlinked.2]
  | cons x list ih =>
    obtain ⟨hfst, hback, hrest⟩ := hlinked
    have hx : ∃ y ∈ x :: list, some x = some y := ⟨x, mem_cons_self, rfl⟩
    refine ⟨?_, ?_, ih hrest (fun node hnode => hnext node ?_) (fun node hnode => hprev node ?_)⟩
    · rw [hnext first (Or.inl rfl), hfst]
    · rw [hprev (some x) (Or.inr hx), hback]
    · rcases hnode with rfl | ⟨y, hy, rfl⟩
      · exact Or.inr hx
      · exact Or.inr ⟨y, mem_cons_of_mem x hy, rfl⟩
    · rcases hnode with rfl | ⟨y, hy, rfl⟩
      · exact Or.inl rfl
      · exact Or.inr ⟨y, mem_cons_of_mem x hy, rfl⟩

theorem Linked.next_first (hlinked : Linked links first list last) :
    links.next first = last ∨ ∃ x ∈ list, links.next first = some x := by
  cases list with
  | nil => exact Or.inl hlinked.1
  | cons x list => exact Or.inr ⟨x, mem_cons_self, hlinked.1⟩

theorem Linked.prev_last (hlinked : Linked links first list last) :
    links.prev last = first ∨ ∃ x ∈ list, links.prev last = some x := by
  rcases hlinked.flip.next_first with hfst | ⟨x, hx, hlast⟩
  · exact Or.inl hfst
  · exact Or.inr ⟨x, mem_reverse.mp hx, hlast⟩

end

/-! ## Splices -/

section
variable [DecidableEq α] {links : Links α} {first last : Option α}

def setNext (links : Links α) (node target : Option α) : Links α :=
  { links with next := update links.next node target }

def setPrev (links : Links α) (node target : Option α) : Links α :=
  { links with prev := update links.prev node target }

def unlink (links : Links α) (x : α) : Links α :=
  let links := setPrev links (links.next (some x)) (links.prev (some x))
  setNext links (links.prev (some x)) (links.next (some x))

def pushFront (links : Links α) (x : α) : Links α :=
  let links := setNext links (some x) (links.next none)
  let links := setPrev links (some x) none
  let links := setPrev links (links.next none) (some x)
  setNext links none (some x)

theorem unlink_next {x : α} (hself : links.next (some x) ≠ some x) (node : Option α) :
    (unlink links x).next node =
      if node = links.prev (some x) then links.next (some x) else links.next node := by
  have hkept : (setPrev links (links.next (some x)) (links.prev (some x))).prev (some x) =
      links.prev (some x) := update_of_ne (Ne.symm hself) _ _
  rw [unlink]
  simp only [setNext, hkept, update_apply]
  rfl

theorem unlink_prev (links : Links α) (x : α) (node : Option α) : (unlink links x).prev node =
      if node = links.next (some x) then links.prev (some x) else links.prev node := by
  simp only [unlink, setNext, setPrev, update_apply]

theorem Linked.unlink {front : List α} {x : α} {back : List α}
    (hfront : Linked links first front (some x)) (hback : Linked links (some x) back last)
    (hnd : (front ++ x :: back).Nodup) (hfst : ∀ y ∈ front ++ x :: back, first ≠ some y)
    (hlast : ∀ y ∈ front ++ x :: back, last ≠ some y) :
    Linked (unlink links x) first (front ++ back) last := by
  have hparts := nodup_append.mp hnd
  have hx := nodup_cons.mp hparts.2.1
  have hself : links.next (some x) ≠ some x := by
    rcases hback.next_first with hnext | ⟨y, hy, hnext⟩
    · rw [hnext]
      exact hlast x (by simp)
    · rw [hnext]
      rintro heq
      exact hx.1 (Option.some.inj heq ▸ hy)
  induction front generalizing first with
  | nil =>
    obtain ⟨-, hprev⟩ := hfront
    cases back with
    | nil =>
      obtain ⟨hnext, -⟩ := hback
      refine ⟨?_, ?_⟩
      · rw [unlink_next hself, hprev, if_pos rfl, hnext]
      · rw [unlink_prev, hnext, if_pos rfl, hprev]
    | cons y back =>
      obtain ⟨hnext, -, hrest⟩ := hback
      refine ⟨?_, ?_, hrest.congr ?_ ?_⟩
      · rw [unlink_next hself, hprev, if_pos rfl, hnext]
      · rw [unlink_prev, hnext, if_pos rfl, hprev]
      · intro node hnode
        rw [unlink_next hself, hprev, if_neg]
        rintro rfl
        rcases hnode with heq | ⟨z, hz, heq⟩
        · exact hfst y (by simp) heq
        · exact hfst z (by simp [hz]) heq
      · intro node hnode
        rw [unlink_prev, hnext, if_neg]
        rintro rfl
        rcases hnode with heq | ⟨z, hz, heq⟩
        · exact hlast y (by simp) heq.symm
        · obtain rfl := Option.some.inj heq
          exact (nodup_cons.mp hx.2).1 hz
  | cons z front ih =>
    obtain ⟨hnext, hprev, hrest⟩ := hfront
    have hz := nodup_cons.mp hnd
    have hfar : links.next (some x) ≠ some z := by
      rcases hback.next_first with heq | ⟨y, hy, heq⟩
      · rw [heq]
        exact hlast z (by simp)
      · rw [heq]
        rintro hsame
        obtain rfl := Option.some.inj hsame
        exact hz.1 (by simp [hy])
    have hnear : first ≠ links.prev (some x) := by
      rcases hrest.prev_last with heq | ⟨y, hy, heq⟩
      · rw [heq]
        exact hfst z (by simp)
      · rw [heq]
        exact hfst y (by simp [hy])
    refine ⟨?_, ?_, ih hrest hz.2 ?_ ?_ ?_⟩
    · rw [unlink_next hself, if_neg hnear, hnext]
    · rw [unlink_prev, if_neg (Ne.symm hfar), hprev]
    · intro y hy heq
      exact hz.1 (Option.some.inj heq ▸ hy)
    · intro y hy
      exact hlast y (mem_cons_of_mem z hy)
    · exact nodup_append.mp hz.2

theorem Ring.unlink {front : List α} {x : α} {back : List α}
    (hring : Ring links (front ++ x :: back)) : Ring (unlink links x) (front ++ back) := by
  obtain ⟨hfront, hback⟩ := linked_append.mp hring.linked
  refine ⟨hfront.unlink hback hring.nodup (by simp) (by simp), ?_⟩
  exact hring.nodup.sublist (List.Sublist.append_left (sublist_cons_self x back) front)

theorem pushFront_next (links : Links α) (x : α) (node : Option α) : (pushFront links x).next node =
      if node = none then some x
      else if node = some x then links.next none else links.next node := by
  simp only [pushFront, setNext, setPrev, update_apply]

theorem pushFront_prev (links : Links α) (x : α) (node : Option α) : (pushFront links x).prev node =
      if node = links.next none then some x
      else if node = some x then none else links.prev node := by
  simp only [pushFront, setNext, setPrev, update_apply, reduceCtorEq, if_false]

theorem Ring.pushFront {order : List α} {x : α} (hring : Ring links order)
    (hx : x ∉ order) : Ring (pushFront links x) (x :: order) := by
  have hlinked := hring.linked
  refine ⟨?_, nodup_cons.mpr ⟨hx, hring.nodup⟩⟩
  cases order with
  | nil =>
    obtain ⟨hnext, hprev⟩ := hlinked
    simp [Linked, pushFront_next, pushFront_prev, hnext]
  | cons y order =>
    obtain ⟨hnext, hprev, hrest⟩ := hlinked
    have hne : y ≠ x := fun heq => hx (by simp [heq])
    have hy := (nodup_cons.mp hring.nodup).1
    have hout : ∀ z ∈ order, z ≠ x := fun z hz heq => hx (by simp [← heq, hz])
    refine ⟨?_, ?_, ?_, ?_, hrest.congr ?_ ?_⟩
    · simp [pushFront_next]
    · simp [pushFront_prev, hnext, Ne.symm hne]
    · simp [pushFront_next, hnext]
    · simp [pushFront_prev, hnext]
    · rintro node (rfl | ⟨z, hz, rfl⟩)
      · simp [pushFront_next, hne]
      · simp [pushFront_next, hout z hz]
    · rintro node (rfl | ⟨z, hz, rfl⟩)
      · simp [pushFront_prev, hnext]
      · have hzy : z ≠ y := fun heq => hy (heq ▸ hz)
        simp [pushFront_prev, hnext, hzy, hout z hz]

theorem Ring.toFront {order : List α} {x : α} (hring : Ring links order) (hx : x ∈ order) :
    Ring (LinkedRing.pushFront (LinkedRing.unlink links x) x) (x :: order.erase x) := by
  obtain ⟨front, back, hnot, horder, herase⟩ := exists_erase_eq hx
  rw [horder] at hring
  rw [herase]
  refine hring.unlink.pushFront ?_
  have hparts := nodup_append.mp hring.nodup
  have hback := (nodup_cons.mp hparts.2.1).1
  simp [hnot, hback]

end

/-! ## Scans -/

/-- The loop `for(x = start; x != head; x = follow(x)) if(test(x)) return x;`. -/
def scan (follow : Option α → Option α) (test : α → Bool) : ℕ → Option α → Option α
  | 0, _ => none
  | _ + 1, none => none
  | fuel + 1, some x => if test x then some x else scan follow test fuel (follow (some x))

def collect (follow : Option α → Option α) : ℕ → Option α → List α
  | 0, _ => []
  | _ + 1, none => []
  | fuel + 1, some x => x :: collect follow fuel (follow (some x))

section
variable {links : Links α} {first : Option α} {order : List α}

theorem Linked.scan (hlinked : Linked links first order none) (test : α → Bool)
    (hfuel : order.length < fuel) :
    LinkedRing.scan links.next test fuel (links.next first) = order.find? test := by
  induction order generalizing first fuel with
  | nil =>
    obtain ⟨fuel, rfl⟩ := exists_eq_succ_of_ne_zero (ne_of_gt hfuel)
    rw [hlinked.1]
    rfl
  | cons x order ih =>
    obtain ⟨hnext, -, hrest⟩ := hlinked
    rw [length_cons] at hfuel
    obtain ⟨fuel, rfl⟩ := exists_eq_succ_of_ne_zero (show fuel ≠ 0 by omega)
    rw [hnext, LinkedRing.scan, List.find?_cons]
    cases test x with
    | true => rfl
    | false => exact ih hrest (by omega)

theorem Linked.collect (hlinked : Linked links first order none) (hfuel : order.length < fuel) :
    LinkedRing.collect links.next fuel (links.next first) = order := by
  induction order generalizing first fuel with
  | nil =>
    obtain ⟨fuel, rfl⟩ := exists_eq_succ_of_ne_zero (ne_of_gt hfuel)
    rw [hlinked.1]
    rfl
  | cons x order ih =>
    obtain ⟨hnext, -, hrest⟩ := hlinked
    rw [length_cons] at hfuel
    obtain ⟨fuel, rfl⟩ := exists_eq_succ_of_ne_zero (show fuel ≠ 0 by omega)
    rw [hnext, LinkedRing.collect, ih hrest (by omega)]

theorem Ring.scan_next (hring : Ring links order) (test : α → Bool) (hfuel : order.length < fuel) :
    LinkedRing.scan links.next test fuel (links.next none) = order.find? test :=
  hring.linked.scan test hfuel

theorem Ring.scan_prev (hring : Ring links order) (test : α → Bool) (hfuel : order.length < fuel) :
    LinkedRing.scan links.prev test fuel (links.prev none) = order.reverse.find? test :=
  hring.linked.flip.scan test (by rwa [length_reverse])

theorem Ring.collect_next (hring : Ring links order) (hfuel : order.length < fuel) :
    LinkedRing.collect links.next fuel (links.next none) = order :=
  hring.linked.collect hfuel

theorem Ring.collect_prev (hring : Ring links order) (hfuel : order.length < fuel) :
    LinkedRing.collect links.prev fuel (links.prev none) = order.reverse :=
  hring.linked.flip.collect (by rwa [length_reverse])

end

end Xv6.LinkedRing
