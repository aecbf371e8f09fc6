/-! Hash maps whose keys are not ids. A value is the list of its entries, each key once, the one
that was inserted last in front. -/

namespace Abcperf

open List

structure KeyMap (Key Value : Type) where
  entries : List (Key × Value)
  distinct : (entries.map Prod.fst).Nodup

namespace KeyMap

variable {Key Value : Type} [DecidableEq Key]

def empty : KeyMap Key Value := ⟨[], nodup_nil⟩

def get (map : KeyMap Key Value) (key : Key) : Option Value := map.entries.lookup key

def len (map : KeyMap Key Value) : Nat := map.entries.length

/-- `HashMap::retain`, with a condition on the keys. -/
def retain (map : KeyMap Key Value) (keep : Key → Bool) : KeyMap Key Value :=
  ⟨map.entries.filter fun entry => keep entry.1,
    map.distinct.sublist (filter_sublist.map Prod.fst)⟩

def remove (map : KeyMap Key Value) (key : Key) : KeyMap Key Value := map.retain (· ≠ key)

theorem not_mem_remove (map : KeyMap Key Value) (key : Key) :
    key ∉ (map.remove key).entries.map Prod.fst := by
  simp [remove, retain]

def insert (map : KeyMap Key Value) (key : Key) (value : Value) : KeyMap Key Value :=
  ⟨(key, value) :: (map.remove key).entries,
    nodup_cons.mpr ⟨map.not_mem_remove key, (map.remove key).distinct⟩⟩

theorem get_eq_some_iff {map : KeyMap Key Value} {key : Key} {value : Value} :
    map.get key = some value ↔ (key, value) ∈ map.entries := by
  obtain ⟨entries, distinct⟩ := map
  change entries.lookup key = some value ↔ (key, value) ∈ entries
  induction entries with
  | nil => simp
  | cons head tail ih =>
    obtain ⟨headKey, headValue⟩ := head
    obtain ⟨fresh, rest⟩ := nodup_cons.mp distinct
    rw [lookup_cons]
    by_cases same : key = headKey
    · subst same
      have absent : (key, value) ∉ tail := fun member =>
        fresh (mem_map.mpr ⟨(key, value), member, rfl⟩)
      simp [absent, eq_comm]
    · have differ : (key == headKey) = false := beq_false_of_ne same
      simp [differ, same, ih rest]

@[simp] theorem get_empty (key : Key) : (empty : KeyMap Key Value).get key = none := rfl

theorem get_retain (map : KeyMap Key Value) (keep : Key → Bool) (key : Key) :
    (map.retain keep).get key = if keep key then map.get key else none := by
  apply Option.ext
  intro value
  rw [get_eq_some_iff]
  by_cases kept : keep key = true
  · simp [retain, kept, get_eq_some_iff]
  · simp [retain, kept]

@[simp] theorem get_remove (map : KeyMap Key Value) (key other : Key) :
    (map.remove key).get other = if other = key then none else map.get other := by
  rw [remove, get_retain]
  by_cases same : other = key <;> simp [same]

@[simp] theorem get_insert (map : KeyMap Key Value) (key other : Key) (value : Value) :
    (map.insert key value).get other = if other = key then some value else map.get other := by
  change ((key, value) :: (map.remove key).entries).lookup other = _
  rw [lookup_cons]
  by_cases same : other = key
  · simp [same]
  have differ : (other == key) = false := beq_false_of_ne same
  rw [differ, if_neg same]
  exact (get_remove map key other).trans (if_neg same)

end KeyMap

end Abcperf
