import Mathlib.Data.Finset.Card
import Mathlib.Data.List.TakeWhile
import Abcperf.Heaps

/-! The key sets of the heaps. `HeapBuffer` and `CursoredHeap` remember the keys they hold beside
the heap itself, and a cursor takes a heap apart and puts what it kept together again. -/

namespace Abcperf.Heaps

open Lib Lib.Outcome List Function

class Keyable (Value : Type) (Key : outParam Type) where
  key : Value → Key

open Keyable

/-- A `HeapBuffer` or a `CursoredHeap`, which have the same fields and the same `insert`. -/
structure KeyedHeap (Value Key : Type) where
  heap : List Value
  known : Finset Key

/-- A cursor does not look at the key set of its heap before `finalize` replaces it. -/
structure Cursor (Value Key : Type) where
  current : Option Value
  heap : List Value
  kept : List Value
  keptSet : Finset Key

variable {Value Key : Type} [LinearOrder Key] [Keyable Value Key]

def push (value : Value) (heap : List Value) : List Value :=
  insert (fun left right => key left ≤ key right) value heap

namespace KeyedHeap

variable (heap : KeyedHeap Value Key)

/-- A `HeapBuffer` also asserts that the key is not known. -/
def insert (value : Value) : KeyedHeap Value Key :=
  ⟨push value heap.heap, heap.known ∪ {key value}⟩

def pop : Option Value × KeyedHeap Value Key :=
  match heap.heap with
  | [] => (none, heap)
  | value :: rest => (some value, ⟨rest, heap.known.erase (key value)⟩)

def cursor : Cursor Value Key := ⟨none, heap.heap, [], ∅⟩

end KeyedHeap

namespace Cursor

variable (cursor : Cursor Value Key)

def keep (current : Value) : Cursor Value Key where
  current := none
  heap := cursor.heap
  kept := cursor.kept ++ [current]
  keptSet := cursor.keptSet ∪ {key current}

def advance : Option Value × Cursor Value Key :=
  let cursor := cursor.current.elim cursor cursor.keep
  (cursor.heap.head?, { cursor with current := cursor.heap.head?, heap := cursor.heap.tail })

def remove : Outcome (Value × Cursor Value Key) := do
  return (← unwrap cursor.current, { cursor with current := none })

theorem advance_eq :
    cursor.advance = (cursor.heap.head?, ⟨cursor.heap.head?, cursor.heap.tail,
      cursor.kept ++ cursor.current.toList,
      cursor.keptSet ∪ (cursor.current.toList.map key).toFinset⟩) := by
  unfold advance keep
  cases cursor.current <;> simp

def exhaust (cursor : Cursor Value Key) : Cursor Value Key :=
  if cursor.advance.1.isSome then exhaust cursor.advance.2 else cursor.advance.2
termination_by cursor.heap.length
decreasing_by
  next found =>
  rw [advance_eq] at found ⊢
  cases heap : cursor.heap with
  | nil => simp [heap] at found
  | cons first rest => simp

def finalize : KeyedHeap Value Key :=
  ⟨cursor.exhaust.kept.reverse.foldr push [], cursor.exhaust.keptSet⟩

end Cursor

/-- The calls on one cursor, with the values passed and those removed. -/
inductive Traversal (start : KeyedHeap Value Key) : Cursor Value Key → List Value →
    List Value → Prop
  | cursor : Traversal start start.cursor [] []
  | advance {cursor visited removed} : Traversal start cursor visited removed →
    Traversal start cursor.advance.2 (visited ++ cursor.advance.1.toList) removed
  | remove {cursor visited removed value next} : Traversal start cursor visited removed →
    cursor.remove = .ok (value, next) → Traversal start next visited (removed ++ [value])

/-- The calls on a new heap, and the finite map that it stands for. -/
inductive KeyedHeap.Run : KeyedHeap Value Key → (Key → Option Value) → Prop
  | default : Run ⟨[], ∅⟩ fun _ => none
  | clear {heap contents} : Run heap contents → Run ⟨[], ∅⟩ fun _ => none
  | insert {heap contents} (value : Value) : Run heap contents → contents (key value) = none →
    Run (heap.insert value) (update contents (key value) (some value))
  | pop {heap contents} : Run heap contents → Run heap.pop.2
      (heap.pop.1.elim contents fun value => update contents (key value) none)
  | finalize {heap contents cursor visited removed} : Run heap contents →
    Traversal heap cursor visited removed →
    Run cursor.finalize fun wanted => if wanted ∈ removed.map key then none else contents wanted

structure Keyed (contents : Key → Option Value) (heap : KeyedHeap Value Key) : Prop where
  increasing : heap.heap.Pairwise fun left right => key left < key right
  stored : ∀ value ∈ heap.heap, contents (key value) = some value
  owned : ∀ wanted value, contents wanted = some value → value ∈ heap.heap ∧ key value = wanted
  known : heap.known = (heap.heap.map key).toFinset

variable {contents : Key → Option Value} {heap start : KeyedHeap Value Key}
  {cursor : Cursor Value Key} {visited removed values : List Value}

namespace Keyed

theorem insert (keyed : Keyed contents heap) {value : Value} (fresh : contents (key value) = none) :
    Keyed (update contents (key value) (some value)) (heap.insert value) := by
  obtain ⟨increasing, stored, owned, known⟩ := keyed
  have mem other : other ∈ push value heap.heap ↔ other = value ∨ other ∈ heap.heap := mem_insert ..
  refine ⟨insert_increasing increasing (by grind), ?_, ?_, ?_⟩
  · grind [update_apply, KeyedHeap.insert]
  · grind [update_apply, KeyedHeap.insert]
  · ext wanted
    simp [KeyedHeap.insert, mem, known, eq_comm]

theorem pop (keyed : Keyed contents heap) : Keyed
    (heap.pop.1.elim contents fun value => update contents (key value) none) heap.pop.2 := by
  unfold KeyedHeap.pop
  split
  · exact keyed
  obtain ⟨increasing, stored, owned, known⟩ := keyed
  next same =>
  rw [same] at increasing stored owned known
  obtain ⟨least, increasing⟩ := pairwise_cons.mp increasing
  dsimp only [Option.elim]
  refine ⟨increasing, ?_, ?_, ?_⟩
  · grind [update_apply]
  · grind [update_apply]
  · ext wanted
    simp [known]
    grind

end Keyed

theorem foldr_push (increasing : values.Pairwise fun left right => key left < key right) :
    values.reverse.foldr push [] = values := by
  induction values using reverseRecOn with
  | nil => rfl
  | append_singleton earlier last ih =>
    obtain ⟨increasing, -, above⟩ := pairwise_append.mp increasing
    have below : ∀ other ∈ earlier, decide ¬ key last ≤ key other := by simpa using above
    rw [reverse_concat, foldr_cons, ih increasing, push, insert, orderedInsert_eq_take_drop,
      takeWhile_eq_self_iff.mpr below, dropWhile_eq_nil_iff.mpr below]

structure Walks (start : KeyedHeap Value Key) (cursor : Cursor Value Key)
    (visited removed : List Value) : Prop where
  parts : visited ++ cursor.heap = start.heap
  sublist : (cursor.kept ++ cursor.current.toList).Sublist visited
  held : ∀ value ∈ visited, value ∈ cursor.kept ++ cursor.current.toList ↔ value ∉ removed
  gone : ∀ value ∈ removed, value ∈ visited
  keys : cursor.keptSet = (cursor.kept.map key).toFinset

theorem Traversal.walks (increasing : start.heap.Pairwise fun left right => key left < key right)
    (traversal : Traversal start cursor visited removed) : Walks start cursor visited removed := by
  have distinct : start.heap.Nodup := increasing.imp fun less same => by simp [same] at less
  induction traversal with
  | cursor => exact ⟨rfl, .slnil, by simp, by simp, rfl⟩
  | @advance cursor visited removed _ ih =>
    obtain ⟨parts, sublist, held, gone, keys⟩ := ih
    rw [cursor.advance_eq]
    rw [← parts] at distinct
    refine ⟨?_, sublist.append_right _, ?_, by grind, by simp [keys, toFinset_append]⟩
    · cases heap : cursor.heap <;> simp [← parts, heap]
    · cases heap : cursor.heap with
      | nil => simpa [heap] using held
      | cons first rest =>
        have fresh : first ∉ visited := by grind
        grind
  | remove _ taken ih =>
    obtain ⟨parts, sublist, held, gone, keys⟩ := ih
    simp only [Cursor.remove, bind_ok, pure_ok, Prod.mk.injEq, unwrap_ok] at taken
    obtain ⟨value, current, rfl, rfl⟩ := taken
    rw [current] at sublist held
    have := sublist.nodup (parts ▸ distinct).of_append_left
    refine ⟨parts, ?_, ?_, ?_, keys⟩
    · exact (append_nil _).symm ▸ (sublist_append_left ..).trans sublist
    · grind
    · grind

theorem Traversal.exhaust (traversal : Traversal start cursor visited removed) :
    ∃ all, Traversal start cursor.exhaust all removed ∧ cursor.exhaust.heap = [] ∧
      cursor.exhaust.current = none := by
  fun_induction Cursor.exhaust cursor generalizing visited with
  | case1 cursor found ih => exact ih traversal.advance
  | case2 cursor ended =>
    refine ⟨_, traversal.advance, ?_⟩
    rw [cursor.advance_eq] at ended ⊢
    cases heap : cursor.heap <;> simp_all

theorem Keyed.finalize (keyed : Keyed contents start)
    (traversal : Traversal start cursor visited removed) :
    (∀ value, value ∈ cursor.finalize.heap ↔ value ∈ start.heap ∧ value ∉ removed) ∧
    Keyed (fun wanted => if wanted ∈ removed.map key then none else contents wanted)
      cursor.finalize := by
  obtain ⟨increasing, stored, owned, known⟩ := keyed
  obtain ⟨all, exhausted, empty, ended⟩ := traversal.exhaust
  obtain ⟨parts, sublist, held, gone, keys⟩ := exhausted.walks increasing
  rw [empty, append_nil] at parts
  subst parts
  rw [ended, Option.toList_none, append_nil] at sublist held
  rw [Cursor.finalize, foldr_push (increasing.sublist sublist)]
  have mem := @sublist.mem
  exact ⟨by grind, increasing.sublist sublist, by grind, by grind, keys⟩

theorem KeyedHeap.Run.keyed (run : KeyedHeap.Run heap contents) : Keyed contents heap := by
  induction run with
  | default => exact ⟨.nil, by simp, by simp, rfl⟩
  | clear => exact ⟨.nil, by simp, by simp, rfl⟩
  | insert value _ fresh ih => exact ih.insert fresh
  | pop _ ih => exact ih.pop
  | finalize _ traversal ih => exact (ih.finalize traversal).2

theorem keyed_heaps_refine (run : KeyedHeap.Run heap contents)
    (traversal : Traversal heap cursor visited removed) :
    Keyed contents heap ∧ heap.pop.1 = heap.heap.head? ∧ visited <+: heap.heap ∧
    (cursor.advance.1 = none → visited = heap.heap) ∧
    ∀ value, value ∈ cursor.finalize.heap ↔ value ∈ heap.heap ∧ value ∉ removed := by
  have keyed := run.keyed
  have walks := traversal.walks keyed.increasing
  refine ⟨keyed, ?_, ⟨_, walks.parts⟩, ?_, (keyed.finalize traversal).1⟩
  · unfold KeyedHeap.pop
    split <;> simp_all
  · intro ended
    rw [cursor.advance_eq, head?_eq_none_iff] at ended
    simpa [ended] using walks.parts

instance : Keyable Nat Nat := ⟨id⟩

/-- Of three values the second one is removed, and the third one is never visited. -/
theorem keyed_heaps_refine_three : ∃ (heap : KeyedHeap Nat Nat) (contents : Nat → Option Nat)
    (cursor : Cursor Nat Nat), KeyedHeap.Run heap contents ∧ heap.heap = [3, 5, 8] ∧
      Traversal heap cursor [3, 5] [5] ∧ Keyed contents heap ∧
      ∀ value, value ∈ cursor.finalize.heap ↔ value ∈ [3, 5, 8] ∧ value ∉ [5] := by
  have run := ((KeyedHeap.Run.default.insert 5 rfl).insert 3 rfl).insert 8 rfl
  have traversal : Traversal (((⟨[], ∅⟩ : KeyedHeap Nat Nat).insert 5).insert 3 |>.insert 8)
      ⟨none, [8], [3], {3}⟩ [3, 5] [5] := (Traversal.cursor.advance.advance).remove rfl
  have refines := keyed_heaps_refine run traversal
  exact ⟨_, _, _, run, rfl, traversal, refines.1, refines.2.2.2.2⟩

end Abcperf.Heaps
