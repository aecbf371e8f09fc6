import Mathlib.Data.List.Sort
import Abcperf.Lib.Outcome

/-! The collections of the `heaps` crate. `HeapBuffer` and `CursoredHeap` are min-heaps that hold
one value per key; a value of the model is the list of what is stored in key order, so `peek` is
the head and a cursor runs over the list. -/

namespace Abcperf.Heaps

open Lib Lib.Outcome List

variable {Value : Type}

def insert (before : Value → Value → Prop) [DecidableRel before] (value : Value)
    (heap : List Value) : List Value :=
  heap.orderedInsert before value

@[simp] theorem mem_insert (before : Value → Value → Prop) [DecidableRel before]
    (value other : Value) (heap : List Value) :
    other ∈ insert before value heap ↔ other = value ∨ other ∈ heap :=
  mem_orderedInsert before

def knows {Key : Type} [DecidableEq Key] (key : Value → Key) (wanted : Key) (heap : List Value) :
    Bool :=
  heap.any (fun value => key value = wanted)

theorem not_knows_iff {Key : Type} [DecidableEq Key] (key : Value → Key) (wanted : Key)
    (heap : List Value) : knows key wanted heap = false ↔ ∀ value ∈ heap, key value ≠ wanted := by
  simp [knows]

theorem insert_pairwise (before lt : Value → Value → Prop) [DecidableRel before] {value : Value}
    (trans : ∀ first second third, lt first second → lt second third → lt first third)
    {heap : List Value} (increasing : heap.Pairwise lt)
    (comparable : ∀ other ∈ heap, if before value other then lt value other else lt other value) :
    (insert before value heap).Pairwise lt := by
  induction heap with
  | nil => exact pairwise_singleton _ _
  | cons head tail ih =>
    obtain ⟨above, rest⟩ := pairwise_cons.mp increasing
    have compared := comparable head mem_cons_self
    unfold insert
    rw [orderedInsert_cons]
    split
    · next notAfter =>
      rw [if_pos notAfter] at compared
      refine pairwise_cons.mpr ⟨fun other member => ?_, increasing⟩
      rcases mem_cons.mp member with rfl | later
      · exact compared
      · exact trans _ _ _ compared (above other later)
    rename_i after
    rw [if_neg after] at compared
    refine pairwise_cons.mpr ⟨fun other member => ?_,
      ih rest fun other member => comparable other (mem_cons_of_mem _ member)⟩
    rcases (mem_insert _ value other tail).mp member with rfl | later
    · exact compared
    · exact above other later

theorem insert_increasing {Key : Type} [LinearOrder Key] {key : Value → Key} {value : Value}
    {heap : List Value} (increasing : heap.Pairwise fun left right => key left < key right)
    (fresh : ∀ other ∈ heap, key other ≠ key value) :
    (insert (fun left right => key left ≤ key right) value heap).Pairwise
      fun left right => key left < key right := by
  apply insert_pairwise _ (fun left right => key left < key right) (fun _ _ _ => lt_trans)
    increasing
  intro other member
  have := fresh other member
  split
  · exact lt_of_le_of_ne ‹_› this.symm
  · exact lt_of_not_ge ‹_›

/-- Client requests that wait for a vertex or a block, grouped in blocks of bounded size. -/
structure PendingClientRequests (Tx : Type) where
  blocks : List (List Tx)
  maximumBlockSize : Nat

namespace PendingClientRequests

variable {Tx : Type} (pending : PendingClientRequests Tx)

def new (maximumBlockSize : Nat) : PendingClientRequests Tx := ⟨[], maximumBlockSize⟩

def popFront : List Tx × PendingClientRequests Tx :=
  match pending.blocks with
  | [] => ([], pending)
  | front :: rest => (front, { pending with blocks := rest })

def copyFront : List Tx := pending.blocks.headD []

/-- The loop of `filter_front`: blocks that become empty are dropped, the first other one ends it.
-/
def filterBlocks (retain : Tx → Bool) : List (List Tx) → List (List Tx)
  | [] => []
  | front :: rest =>
    let kept := front.filter retain
    if kept.isEmpty then filterBlocks retain rest else kept :: rest

def filterFront (retain : Tx → Bool) : PendingClientRequests Tx :=
  { pending with blocks := filterBlocks retain pending.blocks }

/-- The last block takes the transaction unless it is full or missing. -/
def insert (tx : Tx) : PendingClientRequests Tx :=
  match pending.blocks.reverse with
  | last :: earlier =>
    if pending.maximumBlockSize ≤ last.length then
      { pending with blocks := pending.blocks ++ [[tx]] }
    else { pending with blocks := (earlier.reverse) ++ [last ++ [tx]] }
  | [] => { pending with blocks := [[tx]] }

def fullBlockOrAtLeast (miniumBlockSize : Nat) : Outcome Bool := do
  assert (0 < miniumBlockSize)
  match pending.blocks.getLast? with
  | some last => return 1 < pending.blocks.length || miniumBlockSize ≤ last.length
  | none => return false

def filteredOut (retain : Tx → Bool) : List (List Tx) → List Tx
  | [] => []
  | front :: rest =>
    front.filter (!retain ·) ++
      if (front.filter retain).isEmpty then filteredOut retain rest else []

structure History (Tx : Type) where
  inserted : List Tx
  popped : List Tx
  filtered : List Tx

/-- The calls on a new queue. A call of `copy_front` changes nothing. -/
inductive Run (maximum : Nat) : PendingClientRequests Tx → History Tx → Prop
  | new : Run maximum (new maximum) ⟨[], [], []⟩
  | insert {pending history} (tx : Tx) : Run maximum pending history →
    Run maximum (pending.insert tx) { history with inserted := history.inserted ++ [tx] }
  | popFront {pending history} : Run maximum pending history → Run maximum pending.popFront.2
      { history with popped := history.popped ++ pending.popFront.1 }
  | filterFront {pending history} (retain : Tx → Bool) : Run maximum pending history →
    Run maximum (pending.filterFront retain)
      { history with filtered := filteredOut retain pending.blocks ++ history.filtered }

/-- The queue is what was inserted, in order, without what was popped and filtered out. -/
structure Fifo (maximum : Nat) (history : History Tx) : Prop where
  bound : pending.maximumBlockSize = maximum
  order : (history.popped ++ pending.blocks.flatten).Sublist history.inserted
  perm : history.inserted.Perm (history.popped ++ pending.blocks.flatten ++ history.filtered)
  sized : ∀ block ∈ pending.blocks, 1 ≤ block.length ∧ block.length ≤ maximum

variable {pending} {maximum : Nat} {history : History Tx}

theorem popFront_eq :
    pending.popFront = (pending.copyFront, { pending with blocks := pending.blocks.tail }) := by
  obtain ⟨blocks, _⟩ := pending
  cases blocks <;> rfl

theorem insert_cases (tx : Tx) :
    pending.insert tx = { pending with blocks := pending.blocks ++ [[tx]] } ∨
    ∃ earlier last, pending.blocks = earlier ++ [last] ∧ last.length < pending.maximumBlockSize ∧
      pending.insert tx = { pending with blocks := earlier ++ [last ++ [tx]] } := by
  obtain ⟨blocks, size⟩ := pending
  rcases eq_nil_or_concat' blocks with rfl | ⟨earlier, last, rfl⟩
  · exact .inl rfl
  by_cases full : size ≤ last.length
  · exact .inl (by simp [insert, full])
  · exact .inr ⟨earlier, last, rfl, Nat.lt_of_not_le full, by simp [insert, full]⟩

/-- The loop looks at the requests up to the first it keeps, and at the rest of that block. -/
theorem filterBlocks_seen (retain : Tx → Bool) (blocks : List (List Tx)) :
    ∃ seen unseen, blocks.flatten = seen ++ unseen ∧
      (filterBlocks retain blocks).flatten = seen.filter retain ++ unseen ∧
      filteredOut retain blocks = seen.filter (!retain ·) := by
  induction blocks with
  | nil => exact ⟨[], [], rfl, rfl, rfl⟩
  | cons front rest ih =>
    by_cases empty : (front.filter retain).isEmpty
    · obtain ⟨seen, unseen, whole, kept, out⟩ := ih
      refine ⟨front ++ seen, unseen, ?_⟩
      simp [filterBlocks, filteredOut, whole, kept, out, isEmpty_iff.mp empty]
    · exact ⟨front, rest.flatten, by simp [filterBlocks, filteredOut, empty]⟩

theorem filterBlocks_perm (retain : Tx → Bool) (blocks : List (List Tx)) :
    blocks.flatten.Perm ((filterBlocks retain blocks).flatten ++ filteredOut retain blocks) := by
  obtain ⟨seen, unseen, whole, kept, out⟩ := filterBlocks_seen retain blocks
  rw [whole, kept, out, append_assoc]
  refine ((filter_append_perm retain seen).symm.append_right unseen).trans ?_
  rw [append_assoc]
  exact perm_append_comm.append_left _

theorem mem_filterBlocks {retain : Tx → Bool} {blocks : List (List Tx)} {block : List Tx}
    (member : block ∈ filterBlocks retain blocks) :
    block ∈ blocks ∨ block ≠ [] ∧ ∃ whole ∈ blocks, block = whole.filter retain := by
  fun_induction filterBlocks retain blocks with grind

theorem filterBlocks_head (retain : Tx → Bool) (blocks : List (List Tx)) :
    ∀ tx ∈ (filterBlocks retain blocks).headD [], retain tx := by
  fun_induction filterBlocks retain blocks with grind

theorem Fifo.insert (positive : 1 ≤ maximum) (fifo : pending.Fifo maximum history) (tx : Tx) :
    (pending.insert tx).Fifo maximum { history with inserted := history.inserted ++ [tx] } := by
  obtain ⟨rfl, order, perm, sized⟩ := fifo
  have flat : (pending.insert tx).blocks.flatten = pending.blocks.flatten ++ [tx] := by
    rcases @insert_cases _ pending tx with grown | ⟨earlier, last, split, _, grown⟩
    · simp [grown]
    · simp [grown, split]
  refine ⟨by grind [insert_cases], ?_, ?_, by grind [insert_cases]⟩
  · exact flat ▸ append_assoc history.popped _ _ ▸ order.append_right [tx]
  · rw [flat]
    refine (perm.append_right [tx]).trans ?_
    simp only [append_assoc, singleton_append]
    exact ((perm_append_singleton ..).append_left _).append_left _

theorem Run.fifo (positive : 1 ≤ maximum) (run : Run maximum pending history) :
    pending.Fifo maximum history := by
  induction run with
  | new => exact ⟨rfl, .slnil, .nil, by simp [PendingClientRequests.new]⟩
  | insert tx _ ih => exact ih.insert positive tx
  | @popFront pending history _ ih =>
    obtain ⟨rfl, order, perm, sized⟩ := ih
    have front : pending.copyFront ++ pending.blocks.tail.flatten = pending.blocks.flatten := by
      unfold copyFront
      cases pending.blocks <;> simp
    rw [popFront_eq]
    refine ⟨rfl, ?_, ?_, fun block member => sized block (mem_of_mem_tail member)⟩
    · rwa [append_assoc, front]
    · rwa [append_assoc history.popped, front]
  | @filterFront pending history retain _ ih =>
    obtain ⟨rfl, order, perm, sized⟩ := ih
    obtain ⟨seen, unseen, whole, kept, -⟩ := filterBlocks_seen retain pending.blocks
    refine ⟨rfl, ?_, perm.trans ?_, fun block member => ?_⟩
    · rw [whole] at order
      exact (Sublist.append_left (kept ▸ filter_sublist.append_right _) _).trans order
    · simpa [PendingClientRequests.filterFront] using
        ((filterBlocks_perm retain _).append_left history.popped).append_right history.filtered
    · rcases mem_filterBlocks member with old | ⟨nonempty, larger, old, rfl⟩
      · exact sized block old
      · exact ⟨length_pos_iff.mpr nonempty, (length_filter_le ..).trans (sized larger old).2⟩

theorem pending_client_requests_fifo (positive : 1 ≤ maximum) (run : Run maximum pending history) :
    pending.Fifo maximum history ∧ pending.popFront.1 = pending.copyFront ∧
    ∀ retain, pending.blocks.flatten.Perm ((pending.filterFront retain).blocks.flatten ++
        filteredOut retain pending.blocks) ∧
      (∀ tx ∈ filteredOut retain pending.blocks, retain tx = false) ∧
      ∀ tx ∈ (pending.filterFront retain).copyFront, retain tx := by
  refine ⟨run.fifo positive, by rw [popFront_eq], fun retain =>
    ⟨filterBlocks_perm .., fun tx member => ?_, filterBlocks_head _ _⟩⟩
  obtain ⟨seen, _, -, -, out⟩ := filterBlocks_seen retain pending.blocks
  rw [out] at member
  simpa using (mem_filter.mp member).2

/-- Five requests in blocks of two. The filter drops the first block, one request of the second, and
does not look at the third. -/
theorem pending_client_requests_filtered : ∃ (pending : PendingClientRequests Nat)
    (history : History Nat), Run 2 pending history ∧ pending.blocks = [[4], [1]] ∧
      history = ⟨[1, 3, 4, 5, 1], [], [1, 3, 5]⟩ ∧ pending.Fifo 2 history := by
  have run := ((((((Run.new.insert 1).insert 3).insert 4).insert 5).insert 1).filterFront
    fun tx : Nat => tx % 2 = 0 : Run 2 _ _)
  exact ⟨_, _, run, rfl, rfl, (pending_client_requests_fifo (by decide) run).1⟩

end PendingClientRequests

end Abcperf.Heaps
