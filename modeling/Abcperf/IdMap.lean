import Abcperf.IdSet

/-! Hash maps with ids or counters as keys. A value is the list of its entries in increasing order
of the keys, so two maps with the same entries are equal; where the order of iteration matters, the
keys are put into another order by whoever iterates. -/

namespace Abcperf

open List hiding beq_eq_decide

structure IdMap (Value : Type) where
  entries : List (Nat × Value)
  increasing : entries.Pairwise (fun left right => left.1 < right.1)
  deriving DecidableEq

namespace IdMap

variable {Value : Type}

def empty : IdMap Value := ⟨[], List.Pairwise.nil⟩

def get (map : IdMap Value) (key : Nat) : Option Value := map.entries.lookup key

def containsKey (map : IdMap Value) (key : Nat) : Bool := (map.get key).isSome

def len (map : IdMap Value) : Nat := map.entries.length

def keys (map : IdMap Value) : List Nat := map.entries.map Prod.fst

def insertEntry (key : Nat) (value : Value) : List (Nat × Value) → List (Nat × Value)
  | [] => [(key, value)]
  | head :: tail =>
    if key < head.1 then (key, value) :: head :: tail
    else if key = head.1 then (key, value) :: tail
    else head :: insertEntry key value tail

variable {key : Nat} {value : Value} {entries : List (Nat × Value)} {map : IdMap Value}

theorem mem_insertEntry {entry : Nat × Value} (member : entry ∈ insertEntry key value entries) :
    entry = (key, value) ∨ entry ∈ entries := by
  induction entries with
  | nil => exact .inl (mem_singleton.mp member)
  | cons head tail ih =>
    rw [insertEntry] at member
    split at member
    · exact mem_cons.mp member
    split at member
    · rcases mem_cons.mp member with isNew | old
      · exact .inl isNew
      · exact .inr (mem_cons_of_mem _ old)
    rcases mem_cons.mp member with isHead | later
    · exact .inr (isHead ▸ mem_cons_self)
    · exact (ih later).imp_right (mem_cons_of_mem _)

theorem insertEntry_increasing
    (increasing : entries.Pairwise (fun left right => left.1 < right.1)) :
    (insertEntry key value entries).Pairwise (fun left right => left.1 < right.1) := by
  induction entries with
  | nil => exact pairwise_singleton _ _
  | cons head tail ih =>
    obtain ⟨above, rest⟩ := pairwise_cons.mp increasing
    rw [insertEntry]
    split
    · next before =>
      refine pairwise_cons.mpr ⟨?_, increasing⟩
      intro entry member
      rcases mem_cons.mp member with rfl | later
      · exact before
      · exact lt_trans before (above entry later)
    split
    · next same =>
      refine pairwise_cons.mpr ⟨?_, rest⟩
      intro entry member
      exact same ▸ above entry member
    refine pairwise_cons.mpr ⟨?_, ih rest⟩
    intro entry member
    rcases mem_insertEntry member with rfl | old
    · have : key ≠ head.1 := by assumption
      show head.1 < key
      omega
    · exact above entry old

def insert (map : IdMap Value) (key : Nat) (value : Value) : IdMap Value :=
  ⟨insertEntry key value map.entries, insertEntry_increasing map.increasing⟩

/-- `HashMap::retain`, with a condition on the keys. -/
def retain (map : IdMap Value) (keep : Nat → Bool) : IdMap Value :=
  ⟨map.entries.filter fun entry => keep entry.1, map.increasing.filter _⟩

def remove (map : IdMap Value) (key : Nat) : IdMap Value := map.retain (· ≠ key)

def inOrder (map : IdMap Value) (keys : List Nat) : List (Nat × Value) :=
  keys.filterMap fun key => (map.get key).map fun value => (key, value)

theorem mem_of_get (found : map.get key = some value) : (key, value) ∈ map.entries := by
  unfold get at found
  revert found
  induction map.entries with
  | nil => intro found; cases found
  | cons head tail ih =>
    intro found
    obtain ⟨headKey, headValue⟩ := head
    rw [lookup_cons] at found
    split at found
    · next same =>
      cases found
      rw [eq_of_beq same]
      exact mem_cons_self
    · exact mem_cons_of_mem _ (ih found)

theorem get_of_mem (member : (key, value) ∈ map.entries) : map.get key = some value := by
  obtain ⟨entries, increasing⟩ := map
  show entries.lookup key = some value
  induction entries with
  | nil => cases member
  | cons head tail ih =>
    obtain ⟨headKey, headValue⟩ := head
    obtain ⟨above, rest⟩ := pairwise_cons.mp increasing
    rw [lookup_cons]
    rcases mem_cons.mp member with same | later
    · cases same
      rw [beq_self_eq_true]
    have below : headKey < key := above _ later
    have differ : (key == headKey) = false := beq_false_of_ne (ne_of_gt below)
    rw [differ]
    exact ih rest later

theorem get_eq_some_iff : map.get key = some value ↔ (key, value) ∈ map.entries :=
  ⟨mem_of_get, get_of_mem⟩

@[simp] theorem get_empty (key : Nat) : (empty : IdMap Value).get key = none := rfl

theorem lookup_cons_ne {other : Nat} (differ : other ≠ key) (value : Value)
    (entries : List (Nat × Value)) :
    ((key, value) :: entries).lookup other = entries.lookup other := by
  rw [lookup_cons, beq_false_of_ne differ]

theorem lookup_cons_same (key : Nat) (value : Value) (entries : List (Nat × Value)) :
    ((key, value) :: entries).lookup key = some value := by
  rw [lookup_cons, beq_self_eq_true]

theorem lookup_insertEntry_same (key : Nat) (value : Value) (entries : List (Nat × Value)) :
    (insertEntry key value entries).lookup key = some value := by
  induction entries with
  | nil => exact lookup_cons_same key value []
  | cons head tail ih =>
    rw [insertEntry]
    split
    · exact lookup_cons_same key value _
    split
    · exact lookup_cons_same key value _
    · next different => rw [lookup_cons_ne different head.2, ih]

theorem lookup_insertEntry_ne {other : Nat} (differ : other ≠ key) (value : Value)
    (entries : List (Nat × Value)) :
    (insertEntry key value entries).lookup other = entries.lookup other := by
  induction entries with
  | nil => exact lookup_cons_ne differ value []
  | cons head tail ih =>
    rw [insertEntry]
    split
    · exact lookup_cons_ne differ value _
    split
    · next isHead =>
      rw [lookup_cons_ne differ]
      exact (lookup_cons_ne (isHead ▸ differ) head.2 tail).symm
    · rw [lookup_cons, lookup_cons, ih]

@[simp] theorem get_insert (map : IdMap Value) (key other : Nat) (value : Value) :
    (map.insert key value).get other = if other = key then some value else map.get other := by
  split
  · next same => exact same ▸ lookup_insertEntry_same key value map.entries
  · next differ => exact lookup_insertEntry_ne differ value map.entries

theorem mem_keys : key ∈ map.keys ↔ ∃ value, map.get key = some value := by
  simp only [keys, mem_map, Prod.exists, exists_and_right, exists_eq_right, get_eq_some_iff]

theorem containsKey_iff : map.containsKey key = true ↔ ∃ value, map.get key = some value :=
  Option.isSome_iff_exists

theorem keys_nodup (map : IdMap Value) : map.keys.Nodup := by
  rw [keys, List.Nodup, pairwise_map]
  exact map.increasing.imp ne_of_lt

theorem mem_inOrder {keys : List Nat} {entry : Nat × Value} :
    entry ∈ map.inOrder keys ↔ entry.1 ∈ keys ∧ map.get entry.1 = some entry.2 := by
  obtain ⟨key, value⟩ := entry
  simp only [inOrder, mem_filterMap, Option.map_eq_some_iff, Prod.mk.injEq]
  constructor
  · rintro ⟨_, member, _, found, rfl, rfl⟩
    exact ⟨member, found⟩
  · rintro ⟨member, found⟩
    exact ⟨key, member, value, found, rfl, rfl⟩

theorem inOrder_keys {keys : List Nat} (known : ∀ key ∈ keys, key ∈ map.keys) :
    (map.inOrder keys).map Prod.fst = keys := by
  induction keys with
  | nil => rfl
  | cons key rest ih =>
    obtain ⟨value, found⟩ := mem_keys.mp (known key mem_cons_self)
    have tail := ih fun other member => known other (mem_cons_of_mem _ member)
    simpa [inOrder, found] using tail

theorem keys_remove (map : IdMap Value) (key : Nat) :
    (map.remove key).keys = map.keys.erase key := by
  rw [map.keys_nodup.erase_eq_filter]
  simp only [keys, remove, retain, filter_map, Function.comp_def, bne, beq_eq_decide,
    decide_not]

theorem get_remove (map : IdMap Value) (key other : Nat) :
    (map.remove key).get other = if other = key then none else map.get other := by
  refine Option.ext fun value => ?_
  simp only [get_eq_some_iff, remove, retain, mem_filter]
  grind [get_eq_some_iff]

end IdMap

end Abcperf
