import Mathlib

/-!
# Ring buffers with free-running counters

A ring of `size` slots is addressed by counters of `w` bits that are never reduced:
the slot of a counter is its remainder modulo `size`.  When `size` divides `2 ^ w`
the slots stay consecutive across the wrap-around of the counters.  `Holds` says
which items are in the ring, oldest first.
-/

namespace Xv6.RingBuffer

open BitVec List Option

variable {α : Type*} {w size : ℕ}

def slot (size : ℕ) (counter : BitVec w) : ℕ := counter.toNat % size

def advance (start : BitVec w) (count : ℕ) : BitVec w := start + BitVec.ofNat w count

@[simp]
theorem advance_zero (start : BitVec w) : advance start 0 = start := by simp [advance]

theorem advance_advance (start : BitVec w) (first second : ℕ) :
    advance (advance start first) second = advance start (first + second) := by
  simp [advance, ofNat_add, add_assoc]

theorem advance_one (start : BitVec w) : advance start 1 = start + 1 := rfl

/-- Counters that are less than a full turn apart are equal only at the same
distance. -/
theorem advance_inj {start : BitVec w} {first second : ℕ} (hfst : first < 2 ^ w)
    (hsnd : second < 2 ^ w) : advance start first = advance start second ↔ first = second := by
  constructor
  · intro heq
    have hcount : BitVec.ofNat w first = BitVec.ofNat w second := (add_right_inj start).mp heq
    have hnat := congrArg BitVec.toNat hcount
    rwa [toNat_ofNat, toNat_ofNat, Nat.mod_eq_of_lt hfst, Nat.mod_eq_of_lt hsnd] at hnat
  · rintro rfl
    rfl

theorem advance_sub (start : BitVec w) (count : ℕ) :
    advance start count - start = BitVec.ofNat w count := by
  rw [advance, add_comm, add_sub_cancel]

theorem slot_advance (hsize : size ∣ 2 ^ w) (start : BitVec w) (count : ℕ) :
    slot size (advance start count) = (start.toNat + count) % size := by
  rw [slot, advance, toNat_add, toNat_ofNat, Nat.add_mod_mod, Nat.mod_mod_of_dvd _ hsize]

theorem slot_inj (hsize : size ∣ 2 ^ w) {start : BitVec w} {first second : ℕ}
    (hfst : first < size) (hsnd : second < size)
    (heq : slot size (advance start first) = slot size (advance start second)) :
    first = second := by
  rw [slot_advance hsize, slot_advance hsize] at heq
  have hcongr : first ≡ second [MOD size] := Nat.ModEq.add_left_cancel' _ heq
  exact Nat.ModEq.eq_of_lt_of_lt hcongr hfst hsnd

/-- The items in the ring from the counter `start` on, oldest first. -/
structure Holds (size : ℕ) (ring : ℕ → α) (start : BitVec w)
    (items : List α) : Prop where
  length_le : items.length ≤ size
  item : ∀ index value, items[index]? = some value → ring (slot size (advance start index)) = value

variable {ring : ℕ → α} {start : BitVec w} {items rest : List α}

theorem Holds.nil (ring : ℕ → α) (start : BitVec w) : Holds size ring start ([] : List α) :=
  ⟨Nat.zero_le _, fun index value hitem => by simp at hitem⟩

theorem Holds.push (hholds : Holds size ring start items) (hsize : size ∣ 2 ^ w)
    (hroom : items.length < size) (value : α) :
    Holds size (Function.update ring (slot size (advance start items.length)) value)
      start (items ++ [value]) := by
  refine ⟨by rw [length_append]; exact hroom, ?_⟩
  intro index other hitem
  by_cases hlast : index = items.length
  · subst hlast
    rw [List.getElem?_append_right le_rfl, Nat.sub_self] at hitem
    cases hitem
    rw [Function.update_self]
  · have hi : index < items.length := by
      have hlt := (List.getElem?_eq_some_iff.mp hitem).1
      rw [length_append, length_singleton] at hlt
      omega
    rw [Function.update_of_ne, hholds.item index other]
    · rwa [List.getElem?_append_left hi] at hitem
    · intro heq
      exact hlast (slot_inj hsize (hi.trans hroom) hroom heq)

theorem Holds.extend {value : α} (hholds : Holds size ring start items)
    (hroom : items.length < size) (hvalue : ring (slot size (advance start items.length)) = value) :
    Holds size ring start (items ++ [value]) := by
  refine ⟨by rw [length_append]; exact hroom, ?_⟩
  intro index other hitem
  by_cases hlast : index < items.length
  · rw [List.getElem?_append_left hlast] at hitem
    exact hholds.item index other hitem
  · have hi := (List.getElem?_eq_some_iff.mp hitem).1
    rw [length_append, length_singleton] at hi
    have heq : index = items.length := by omega
    subst heq
    rw [List.getElem?_append_right le_rfl, Nat.sub_self] at hitem
    cases hitem
    exact hvalue

/-- The oldest item is read from the slot of the counter, which then moves on. -/
theorem Holds.pop {value : α} (hholds : Holds size ring start (value :: items)) :
    ring (slot size start) = value ∧ Holds size ring (start + 1) items := by
  constructor
  · simpa using hholds.item 0 value rfl
  · refine ⟨Nat.le_of_succ_le hholds.length_le, ?_⟩
    intro index other hitem
    have hnext := hholds.item (index + 1) other (by simpa using hitem)
    rwa [Nat.add_comm, ← advance_advance, advance_one] at hnext

theorem Holds.left (hholds : Holds size ring start (items ++ rest)) :
    Holds size ring start items := by
  refine ⟨?_, ?_⟩
  · have hlen := hholds.length_le
    rw [length_append] at hlen
    omega
  · intro index value hitem
    have hi := (List.getElem?_eq_some_iff.mp hitem).1
    exact hholds.item index value (by rwa [List.getElem?_append_left hi])

theorem Holds.right (hholds : Holds size ring start (items ++ rest)) :
    Holds size ring (advance start items.length) rest := by
  refine ⟨?_, ?_⟩
  · have hlen := hholds.length_le
    rw [length_append] at hlen
    omega
  · intro index value hitem
    rw [advance_advance]
    refine hholds.item _ value ?_
    rwa [List.getElem?_append_right (Nat.le_add_right _ _), Nat.add_sub_cancel_left]

/-- The items that `count` slots from `start` on hold. -/
def read (size : ℕ) (ring : ℕ → α) (start : BitVec w) (count : ℕ) : List α :=
  (List.range count).map fun index => ring (slot size (advance start index))

theorem Holds.read_eq (hholds : Holds size ring start items) :
    read size ring start items.length = items := by
  refine ext_getElem? fun index => ?_
  by_cases hi : index < items.length
  · rw [read, List.getElem?_map, List.getElem?_range hi, map_some, List.getElem?_eq_getElem hi]
    exact congrArg some (hholds.item index _ (List.getElem?_eq_getElem hi))
  · rw [List.getElem?_eq_none (by simpa [read] using hi), List.getElem?_eq_none (by simpa using hi)]

end Xv6.RingBuffer
