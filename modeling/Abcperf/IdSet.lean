import Mathlib.Data.List.Sort
import Mathlib.Data.Finset.Card

/-! Sets of ids as the `id-set` crate has them. A bit set iterates its members in increasing order,
so a value is the strictly increasing list of its members; the order is a field of the type and two
sets with the same members are equal. -/

namespace Abcperf

open List

structure IdSet where
  ids : List Nat
  increasing : ids.Pairwise (· < ·)
  deriving DecidableEq

namespace IdSet

theorem ext_ids {left right : IdSet} (same : left.ids = right.ids) : left = right := by
  cases left
  cases right
  cases same
  rfl

/-- `IdSet::with_capacity`: the capacity is only a storage hint. -/
def empty : IdSet := ⟨[], List.Pairwise.nil⟩

def contains (set : IdSet) (id : Nat) : Bool := set.ids.contains id

def len (set : IdSet) : Nat := set.ids.length

/-- `IdSet::iter` runs over the members in increasing order. -/
def iter (set : IdSet) : List Nat := set.ids

def insertList (id : Nat) : List Nat → List Nat
  | [] => [id]
  | head :: tail =>
    if id < head then id :: head :: tail
    else if id = head then head :: tail
    else head :: insertList id tail

theorem mem_insertList (id other : Nat) (ids : List Nat) :
    other ∈ insertList id ids ↔ other = id ∨ other ∈ ids := by
  induction ids with
  | nil => simp [insertList]
  | cons head tail ih =>
    simp only [insertList]
    split
    · simp
    split
    · next same => subst same; simp
    · simp only [mem_cons, ih]
      tauto

theorem insertList_increasing (id : Nat) (ids : List Nat) (increasing : ids.Pairwise (· < ·)) :
    (insertList id ids).Pairwise (· < ·) := by
  induction ids with
  | nil => simp [insertList]
  | cons head tail ih =>
    have above := (pairwise_cons.mp increasing).1
    have rest := (pairwise_cons.mp increasing).2
    simp only [insertList]
    split
    · next before =>
      refine pairwise_cons.mpr ⟨?_, increasing⟩
      intro other member
      rcases mem_cons.mp member with same | later
      · omega
      · have := above other later; omega
    split
    · exact increasing
    refine pairwise_cons.mpr ⟨?_, ih rest⟩
    intro other member
    rcases (mem_insertList id other tail).mp member with same | later
    · omega
    · exact above other later

def insert (set : IdSet) (id : Nat) : IdSet :=
  ⟨insertList id set.ids, insertList_increasing id set.ids set.increasing⟩

def remove (set : IdSet) (id : Nat) : IdSet :=
  ⟨set.ids.filter (· ≠ id), set.increasing.filter _⟩

def merge (set other : IdSet) : IdSet := other.ids.foldl insert set

instance : Membership Nat IdSet := ⟨fun set id => id ∈ set.ids⟩

theorem mem_def (set : IdSet) (id : Nat) : id ∈ set ↔ id ∈ set.ids := Iff.rfl

@[simp] theorem not_mem_empty (id : Nat) : id ∉ empty := by simp [mem_def, empty]

@[simp] theorem contains_iff (set : IdSet) (id : Nat) : set.contains id = true ↔ id ∈ set := by
  simp [contains, mem_def]

@[simp] theorem mem_iter (set : IdSet) (id : Nat) : id ∈ set.iter ↔ id ∈ set := Iff.rfl

@[simp] theorem mem_insert (set : IdSet) (id other : Nat) :
    other ∈ set.insert id ↔ other = id ∨ other ∈ set := mem_insertList id other set.ids

theorem mem_foldl_insert (ids : List Nat) (set : IdSet) (id : Nat) :
    id ∈ ids.foldl insert set ↔ id ∈ set ∨ id ∈ ids := by
  induction ids generalizing set with
  | nil => simp
  | cons head tail ih =>
    simp only [foldl_cons, ih, mem_insert, mem_cons]
    tauto

@[simp] theorem mem_merge (set other : IdSet) (id : Nat) :
    id ∈ set.merge other ↔ id ∈ set ∨ id ∈ other := mem_foldl_insert other.ids set id

def toFinset (set : IdSet) : Finset Nat := set.ids.toFinset

@[simp] theorem mem_toFinset (set : IdSet) (id : Nat) : id ∈ set.toFinset ↔ id ∈ set := by
  simp [toFinset, mem_def]

theorem ids_nodup (set : IdSet) : set.ids.Nodup :=
  set.increasing.imp (fun less => ne_of_lt less)

theorem card_toFinset (set : IdSet) : set.toFinset.card = set.len :=
  toFinset_card_of_nodup set.ids_nodup

theorem len_le_insert (set : IdSet) (id : Nat) : set.len ≤ (set.insert id).len := by
  rw [← card_toFinset, ← card_toFinset]
  refine Finset.card_le_card fun other member => ?_
  rw [mem_toFinset] at member ⊢
  exact (mem_insert set id other).mpr (.inr member)

theorem full_of_len (set : IdSet) (bound : Nat) (below : ∀ id ∈ set, id < bound)
    (large : bound ≤ set.len) (id : Nat) (inRange : id < bound) : id ∈ set := by
  have within : set.toFinset ⊆ Finset.range bound := by
    intro other member
    exact Finset.mem_range.mpr (below other ((mem_toFinset set other).mp member))
  have same : set.toFinset = Finset.range bound := by
    apply Finset.eq_of_subset_of_card_le within
    rw [card_toFinset, Finset.card_range]
    exact large
  exact (mem_toFinset set id).mp (same ▸ Finset.mem_range.mpr inRange)

end IdSet
end Abcperf
