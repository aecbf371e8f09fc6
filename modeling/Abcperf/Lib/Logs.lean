import Mathlib.Data.List.Basic

/-! Logs of which observers have read more or less. Two readings agree when one is a prefix of the
other. Where the first acceptable entry of a key wins and later ones are ignored, readings that
agree position by position have the same winners. Where a client's requests are only delivered in
the order of their ids, a sequence is described by the last id of each client. -/

namespace Abcperf.Lib

open List

variable {Entry Key : Type}

def PrefixComparable (left right : List Entry) : Prop := left <+: right ∨ right <+: left

/-- Sequences whose entries are told apart by `key` compare as their keys do. -/
theorem prefix_of_map {key : Entry → Key} {left right : List Entry}
    (same : ∀ entry ∈ left, ∀ other ∈ right, key entry = key other → entry = other)
    (isPrefix : left.map key <+: right.map key) : left <+: right := by
  induction left generalizing right with
  | nil => exact nil_prefix
  | cons entry rest ih =>
    cases right with
    | nil => simp at isPrefix
    | cons other others =>
      rw [map_cons, map_cons, cons_prefix_cons] at isPrefix
      have isOther := same entry (mem_cons_self ..) other (mem_cons_self ..) isPrefix.1
      rw [isOther, cons_prefix_cons]
      refine ⟨rfl, ih ?_ isPrefix.2⟩
      intro first isFirst second isSecond
      exact same first (mem_cons_of_mem _ isFirst) second (mem_cons_of_mem _ isSecond)

def FirstWins (accept : Entry → Prop) (key : Entry → Key) (log : List Entry) (winner : Entry) :
    Prop :=
  ∃ earlier later, log = earlier ++ winner :: later ∧ accept winner ∧
    ∀ other ∈ earlier, accept other → key other ≠ key winner

namespace FirstWins

variable {accept : Entry → Prop} {key : Entry → Key}
  {log : List Entry} {winner : Entry} {related : Entry → Entry → Prop}

theorem append {more : List Entry} (wins : FirstWins accept key log winner) :
    FirstWins accept key (log ++ more) winner := by
  obtain ⟨earlier, later, rfl, accepted, first⟩ := wins
  exact ⟨earlier, later ++ more, by simp, accepted, first⟩

theorem mem (wins : FirstWins accept key log winner) : winner ∈ log ∧ accept winner := by
  obtain ⟨earlier, later, rfl, accepted, _⟩ := wins
  exact ⟨by simp, accepted⟩

theorem exists_winner {entry : Entry} (member : entry ∈ log) (accepted : accept entry) :
    ∃ winner, FirstWins accept key log winner ∧ key winner = key entry := by
  induction log with
  | nil => cases member
  | cons head rest ih =>
    by_cases hit : accept head ∧ key head = key entry
    · exact ⟨head, ⟨[], rest, rfl, hit.1, fun _ isEarlier => by cases isEarlier⟩, hit.2⟩
    have inRest : entry ∈ rest := by
      rcases mem_cons.mp member with rfl | inRest
      · exact absurd ⟨accepted, rfl⟩ hit
      · exact inRest
    obtain ⟨winner, ⟨earlier, later, rfl, winnerAccepted, first⟩, keyed⟩ := ih inRest
    refine ⟨winner, ⟨head :: earlier, later, rfl, winnerAccepted, ?_⟩, keyed⟩
    intro other isEarlier otherAccepted
    rcases mem_cons.mp isEarlier with rfl | inEarlier
    · exact fun sameKey => hit ⟨otherAccepted, sameKey.trans keyed⟩
    · exact first other inEarlier otherAccepted

theorem snoc {entry : Entry} :
    FirstWins accept key (log ++ [entry]) winner ↔ FirstWins accept key log winner ∨
      (winner = entry ∧ accept entry ∧
        ∀ other, FirstWins accept key log other → key other ≠ key entry) := by
  constructor
  · rintro ⟨earlier, later, split, accepted, first⟩
    rcases eq_nil_or_concat later with rfl | ⟨front, last, rfl⟩
    · obtain ⟨rfl, isEntry⟩ := append_inj' split rfl
      cases isEntry
      refine .inr ⟨rfl, accepted, ?_⟩
      intro other wins
      exact first other wins.mem.1 wins.mem.2
    have shape : log ++ [entry] = (earlier ++ winner :: front) ++ [last] := by
      rw [split]
      simp
    obtain ⟨rfl, _⟩ := append_inj' shape rfl
    exact .inl ⟨earlier, front, rfl, accepted, first⟩
  rintro (wins | ⟨rfl, accepted, fresh⟩)
  · exact wins.append
  refine ⟨log, [], rfl, accepted, ?_⟩
  intro other member otherAccepted sameKey
  obtain ⟨earlier, wins, keyed⟩ := exists_winner member otherAccepted
  exact fresh earlier wins (keyed.trans sameKey)

theorem not_earlier {log' : List Entry}
    (agree : ∀ (index : Nat) left right, log[index]? = some left → log'[index]? = some right →
      related left right) (sameAccept : ∀ left right, related left right → accept left →
        accept right)
    (sameKey : ∀ left right, related left right → key left = key right)
    {earlier later earlier' later' : List Entry} {winner' : Entry}
    (isLog : log = earlier ++ winner :: later) (accepted : accept winner)
    (isLog' : log' = earlier' ++ winner' :: later')
    (first' : ∀ other ∈ earlier', accept other → key other ≠ key winner')
    (keyed : key winner = key winner') : earlier'.length ≤ earlier.length := by
  by_contra shorter
  rw [Nat.not_le] at shorter
  obtain ⟨other, found⟩ : ∃ other, earlier'[earlier.length]? = some other :=
    ⟨_, List.getElem?_eq_getElem shorter⟩
  have position : log[earlier.length]? = some winner := by simp [isLog]
  have position' : log'[earlier.length]? = some other := by
    rw [isLog', List.getElem?_append_left shorter, found]
  have isRelated := agree _ _ _ position position'
  exact first' other (mem_of_getElem? found) (sameAccept _ _ isRelated accepted)
    ((sameKey _ _ isRelated).symm.trans keyed)

theorem agree {log' : List Entry}
    (agree : ∀ (index : Nat) left right, log[index]? = some left → log'[index]? = some right →
      related left right) (sameAccept : ∀ left right, related left right →
        (accept left ↔ accept right))
    (sameKey : ∀ left right, related left right → key left = key right) {winner' : Entry}
    (wins : FirstWins accept key log winner) (wins' : FirstWins accept key log' winner')
    (keyed : key winner = key winner') : related winner winner' := by
  obtain ⟨earlier, later, isLog, accepted, first⟩ := wins
  obtain ⟨earlier', later', isLog', accepted', first'⟩ := wins'
  have le := not_earlier agree (fun left right same => (sameAccept left right same).mp) sameKey
    isLog accepted isLog' first' keyed
  have swapped : ∀ (index : Nat) left right, log'[index]? = some left → log[index]? = some right →
      Function.swap related left right :=
    fun index left right found found' => agree index right left found' found
  have ge := not_earlier swapped (fun left right same => (sameAccept right left same).mpr)
    (fun left right same => (sameKey right left same).symm) isLog' accepted' isLog first keyed.symm
  refine agree earlier.length winner winner' (by simp [isLog]) ?_
  rw [Nat.le_antisymm ge le]
  simp [isLog']

end FirstWins

/-- A sequence of requests in which every client's ids increase, with the last id of each. -/
structure Newest {Tx : Type} (client request : Tx → Nat) (delivered : List Tx)
    (last : Nat → Option Nat) : Prop where
  ascending : delivered.Pairwise fun earlier later =>
    client earlier = client later → request earlier < request later
  bounded : ∀ tx ∈ delivered, ∃ id, last (client tx) = some id ∧ request tx ≤ id

namespace Newest

variable {Tx : Type} {client request : Tx → Nat}

theorem nil (last : Nat → Option Nat) : Newest client request [] last :=
  ⟨List.Pairwise.nil, by simp⟩

theorem snoc {delivered : List Tx} {last : Nat → Option Nat} {tx : Tx}
    (newest : Newest client request delivered last)
    (fresh : ∀ id, last (client tx) = some id → id < request tx) :
    Newest client request (delivered ++ [tx])
      (Function.update last (client tx) (some (request tx))) := by
  constructor
  · rw [pairwise_append]
    refine ⟨newest.ascending, pairwise_singleton _ _, ?_⟩
    intro earlier member later isTx sameClient
    rw [mem_singleton] at isTx
    subst isTx
    obtain ⟨id, isLast, le⟩ := newest.bounded earlier member
    exact Nat.lt_of_le_of_lt le (fresh id (sameClient ▸ isLast))
  intro other member
  by_cases sameClient : client other = client tx
  · rw [sameClient, Function.update_self]
    refine ⟨request tx, rfl, ?_⟩
    rcases mem_append.mp member with earlier | isTx
    · obtain ⟨id, isLast, le⟩ := newest.bounded other earlier
      have := fresh id (sameClient ▸ isLast)
      omega
    · exact Nat.le_of_eq (congrArg request (mem_singleton.mp isTx))
  rw [Function.update_of_ne sameClient]
  rcases mem_append.mp member with earlier | isTx
  · exact newest.bounded other earlier
  · exact absurd (congrArg client (mem_singleton.mp isTx)) sameClient

end Newest

end Abcperf.Lib
