import Mathlib.Data.Finset.Card

/-! Graphs in rounds and the wave commit rule over them. A `RoundDag` is what one observer knows:
the parents of every known vertex, all of them known and one round earlier. Waves have a leader
vertex and a later voting round; a wave is supported when a quorum of its voting round reaches the
leader. Any two quorums of one round share a vertex, so a supported leader is reached from every
later vertex, and the leaders committed below two supported waves form prefixes of each other. -/

namespace Abcperf.Lib

open Relation.ReflTransGen List Option

structure RoundDag (V : Type) (round : V → Nat) where
  parents : V → Option (Finset V)
  closed : ∀ vertex below, parents vertex = some below → ∀ parent ∈ below,
    (parents parent).isSome ∧ round parent + 1 = round vertex

namespace RoundDag

variable {V : Type} {round : V → Nat}

def Known (dag : RoundDag V round) (vertex : V) : Prop := (dag.parents vertex).isSome

def Edge (dag : RoundDag V round) (vertex parent : V) : Prop :=
  ∃ below, dag.parents vertex = some below ∧ parent ∈ below

def Reaches (dag : RoundDag V round) : V → V → Prop := Relation.ReflTransGen dag.Edge

variable {dag small large left right : RoundDag V round} {top bottom : V} {quorum : Finset V → Prop}

theorem edge_known {vertex parent : V} (edge : dag.Edge vertex parent) :
    dag.Known parent ∧ round parent + 1 = round vertex := by
  obtain ⟨below, known, member⟩ := edge
  exact dag.closed vertex below known parent member

theorem reaches_known (path : dag.Reaches top bottom) (known : dag.Known top) :
    dag.Known bottom := by
  induction path with
  | refl => exact known
  | tail _ edge _ => exact (edge_known edge).1

theorem reaches_round (path : dag.Reaches top bottom) : round bottom ≤ round top := by
  induction path with
  | refl => exact le_rfl
  | tail _ edge ih =>
    have := (edge_known edge).2
    omega

theorem reaches_same_round (path : dag.Reaches top bottom) (same : round bottom = round top) :
    top = bottom := by
  rcases cases_head path with equal | ⟨parent, edge, rest⟩
  · exact equal
  have := (edge_known edge).2
  have := reaches_round rest
  omega

theorem reaches_lower_iff (lower : round bottom < round top) :
    dag.Reaches top bottom ↔ ∃ parent, dag.Edge top parent ∧ dag.Reaches parent bottom := by
  constructor
  · intro path
    rcases cases_head path with rfl | ⟨parent, edge, rest⟩
    · exact absurd lower (lt_irrefl _)
    · exact ⟨parent, edge, rest⟩
  · rintro ⟨parent, edge, rest⟩
    exact head edge rest

/-- One observer knows no more than another: the parents of what it knows are the same. -/
def Within (small large : RoundDag V round) : Prop :=
  ∀ vertex below, small.parents vertex = some below → large.parents vertex = some below

section

variable (within : small.Within large)

include within

theorem within_known {vertex : V} (known : small.Known vertex) : large.Known vertex := by
  obtain ⟨below, found⟩ := isSome_iff_exists.mp known
  exact isSome_iff_exists.mpr ⟨below, within vertex below found⟩

theorem within_reaches (path : small.Reaches top bottom) : large.Reaches top bottom := by
  induction path with
  | refl => exact refl
  | tail _ edge ih =>
    obtain ⟨below, known, member⟩ := edge
    exact ih.tail ⟨below, within _ below known, member⟩

/-- From a vertex the smaller observer knows, the larger one sees no other paths. -/
theorem reaches_within (known : small.Known top) (path : large.Reaches top bottom) :
    small.Reaches top bottom := by
  induction path with
  | refl => exact refl
  | tail _ edge ih =>
    obtain ⟨below, found, member⟩ := edge
    obtain ⟨below', found'⟩ := isSome_iff_exists.mp (reaches_known ih known)
    cases (within _ _ found').symm.trans found
    exact ih.tail ⟨below, found', member⟩

theorem reaches_within_iff (known : small.Known top) (bottom : V) :
    large.Reaches top bottom ↔ small.Reaches top bottom :=
  ⟨reaches_within within known, within_reaches within⟩

end

def union (left right : RoundDag V round) : RoundDag V round where
  parents vertex := (left.parents vertex).or (right.parents vertex)
  closed := by
    intro vertex below known parent member
    cases found : left.parents vertex with
    | none =>
      rw [found, none_or] at known
      have ⟨parentKnown, next⟩ := right.closed vertex below known parent member
      refine ⟨?_, next⟩
      cases left.parents parent <;> simp [parentKnown]
    | some below' =>
      rw [found, some_or] at known
      cases known
      have ⟨parentKnown, next⟩ := left.closed vertex below found parent member
      refine ⟨?_, next⟩
      obtain ⟨older, foundParent⟩ := isSome_iff_exists.mp parentKnown
      simp [foundParent]

def Consistent (left right : RoundDag V round) : Prop :=
  ∀ vertex below below', left.parents vertex = some below → right.parents vertex = some below' →
    below = below'

theorem within_union_left (left right : RoundDag V round) : left.Within (left.union right) := by
  intro vertex below known
  simp [union, known]

theorem within_union_right (same : left.Consistent right) : right.Within (left.union right) := by
  intro vertex below known
  cases found : left.parents vertex with
  | none => simp [union, found, known]
  | some below' => simp [union, found, same vertex below' below found known]

def Dense (quorum : Finset V → Prop) (dag : RoundDag V round) : Prop :=
  ∀ vertex below, dag.parents vertex = some below → 1 < round vertex → quorum below

theorem dense_union (leftDense : left.Dense quorum) (rightDense : right.Dense quorum) :
    (left.union right).Dense quorum := by
  intro vertex below known above
  cases found : left.parents vertex with
  | none =>
    simp only [union, found, none_or] at known
    exact rightDense vertex below known above
  | some below' =>
    simp only [union, found, some_or, some.injEq] at known
    exact leftDense vertex below (known ▸ found) above

def Intersecting (round : V → Nat) (quorum : Finset V → Prop) : Prop :=
  ∀ left right level, quorum left → quorum right → (∀ vertex ∈ left, round vertex = level) →
    (∀ vertex ∈ right, round vertex = level) → ∃ vertex, vertex ∈ left ∧ vertex ∈ right

def Supported (quorum : Finset V → Prop) (dag : RoundDag V round) (leader : V) (level : Nat) :
    Prop :=
  ∃ votes, quorum votes ∧ ∀ vote ∈ votes, round vote = level ∧ dag.Known vote ∧
    dag.Reaches vote leader

theorem supported_within (within : small.Within large) {leader : V} {level : Nat}
    (supported : small.Supported quorum leader level) : large.Supported quorum leader level := by
  obtain ⟨votes, enough, each⟩ := supported
  refine ⟨votes, enough, ?_⟩
  intro vote member
  obtain ⟨atLevel, known, path⟩ := each vote member
  exact ⟨atLevel, within_known within known, within_reaches within path⟩

/-- Quorum intersection: a vertex just above the voting round has a voter among its parents, and
every later vertex has a parent that reaches the leader by induction on the round. -/
theorem reaches_supported (intersecting : Intersecting round quorum) (dense : dag.Dense quorum)
    {leader : V} {level : Nat} (positive : 0 < level)
    (supported : dag.Supported quorum leader level) :
    ∀ distance vertex, dag.Known vertex → round vertex = level + 1 + distance →
      dag.Reaches vertex leader := by
  obtain ⟨votes, enough, each⟩ := supported
  intro distance
  induction distance with
  | zero =>
    intro vertex known atRound
    obtain ⟨below, found⟩ := isSome_iff_exists.mp known
    have parentsEnough := dense vertex below found (by omega)
    have parentRound : ∀ parent ∈ below, round parent = level := by
      intro parent member
      have := (dag.closed vertex below found parent member).2
      omega
    obtain ⟨vote, isParent, isVote⟩ := intersecting below votes level parentsEnough enough
      parentRound (fun vote member => (each vote member).1)
    exact head ⟨below, found, isParent⟩ (each vote isVote).2.2
  | succ distance ih =>
    intro vertex known atRound
    obtain ⟨below, found⟩ := isSome_iff_exists.mp known
    have parentsEnough := dense vertex below found (by omega)
    -- two copies of one quorum meet, so a quorum of parents is not empty
    obtain ⟨parent, isParent, _⟩ := intersecting below below (level + 1 + distance)
      parentsEnough parentsEnough
      (fun parent member => by have := (dag.closed vertex below found parent member).2; omega)
      (fun parent member => by have := (dag.closed vertex below found parent member).2; omega)
    obtain ⟨parentKnown, next⟩ := dag.closed vertex below found parent isParent
    exact head ⟨below, found, isParent⟩ (ih parent parentKnown (by omega))

section Leaders

open Classical in
/-- The leaders of the waves `floor + 1, …, wave` that a walk down from `vertex` commits, oldest
first: a leader that is reached is committed and the walk goes on from it. -/
noncomputable def committed (dag : RoundDag V round) (leader : Nat → V) (floor : Nat) :
    V → Nat → List V
  | _, 0 => []
  | vertex, wave + 1 =>
    if wave + 1 ≤ floor then []
    else if dag.Reaches vertex (leader (wave + 1)) then
      committed dag leader floor (leader (wave + 1)) wave ++ [leader (wave + 1)]
    else committed dag leader floor vertex wave

noncomputable def sequence (dag : RoundDag V round) (leader : Nat → V) : Nat → List V
  | 0 => []
  | wave + 1 => dag.committed leader 0 (leader (wave + 1)) wave ++ [leader (wave + 1)]

theorem committed_floor (dag : RoundDag V round) (leader : Nat → V) (floor : Nat) (vertex : V) :
    ∀ wave, wave ≤ floor → dag.committed leader floor vertex wave = []
  | 0, _ => rfl
  | wave + 1, below => by rw [committed, if_pos below]

variable {small large dag : RoundDag V round} {low floor : Nat} {member : V}

theorem committed_within (within : small.Within large) (leader : Nat → V) (floor : Nat) :
    ∀ wave vertex, small.Known vertex →
      large.committed leader floor vertex wave = small.committed leader floor vertex wave := by
  intro wave
  induction wave with
  | zero => intro vertex _; rfl
  | succ wave ih =>
    intro vertex known
    have same := reaches_within_iff within known (leader (wave + 1))
    by_cases reached : small.Reaches vertex (leader (wave + 1))
    · have leaderKnown := reaches_known reached known
      simp only [committed, same, reached, if_true, ih _ leaderKnown]
    · simp only [committed, same, reached, if_false, ih vertex known]

theorem sequence_eq_committed (dag : RoundDag V round) (leader : Nat → V) :
    ∀ wave, dag.sequence leader wave = dag.committed leader 0 (leader wave) wave
  | 0 => rfl
  | wave + 1 => by rw [sequence, committed, if_neg (Nat.not_succ_le_zero _),
    if_pos (show dag.Reaches _ _ from refl)]

theorem sequence_within (within : small.Within large) (leader : Nat → V) (wave : Nat)
    (known : small.Known (leader wave)) :
    large.sequence leader wave = small.sequence leader wave := by
  rw [sequence_eq_committed, sequence_eq_committed, committed_within within leader 0 wave _ known]

variable {quorum : Finset V → Prop} {leader : Nat → V} {voting : Nat → Nat}

section

variable (intersecting : Intersecting round quorum) (dense : dag.Dense quorum)
  (ordered : ∀ early late, early < late → voting early < round (leader late))

include intersecting dense ordered

/-- The walk from a vertex above the voting round of a supported wave passes through that wave's
leader, so what it commits below is the sequence of the supported wave. -/
theorem committed_eq_sequence_append (positive : 0 < low) (votingPositive : 0 < voting low)
    (supported : dag.Supported quorum (leader low) (voting low)) :
    ∀ wave, low ≤ wave → ∀ vertex, dag.Known vertex → voting low < round vertex →
      dag.committed leader 0 vertex wave =
        dag.sequence leader low ++ dag.committed leader low vertex wave := by
  intro wave
  induction wave with
  | zero => intro below; omega
  | succ wave ih =>
    intro below vertex known above
    have reachesLow : dag.Reaches vertex (leader low) :=
      reaches_supported intersecting dense votingPositive supported
        (round vertex - voting low - 1) vertex known (by omega)
    by_cases last : low = wave + 1
    · subst last
      rw [committed_floor dag leader (wave + 1) vertex (wave + 1) le_rfl, append_nil]
      simp only [committed, Nat.le_zero, Nat.add_eq_zero_iff, one_ne_zero, and_false, if_false,
        reachesLow, if_true, sequence]
    have later : low ≤ wave := by omega
    have notFloor : ¬ wave + 1 ≤ low := by omega
    by_cases reached : dag.Reaches vertex (leader (wave + 1))
    · have leaderAbove := ordered low (wave + 1) (by omega)
      have rest := ih later (leader (wave + 1)) (reaches_known reached known) leaderAbove
      simp only [committed, Nat.le_zero, Nat.add_eq_zero_iff, one_ne_zero, and_false, if_false,
        reached, if_true, notFloor, rest, append_assoc]
    have rest := ih later vertex known above
    simp only [committed, Nat.le_zero, Nat.add_eq_zero_iff, one_ne_zero, and_false, if_false,
      reached, notFloor, rest]

/-- The leaders between two supported waves extend the sequence of the lower one. -/
theorem sequence_eq_append {high : Nat} (less : low < high)
    (votingPositive : 0 < low → 0 < voting low)
    (supported : 0 < low → dag.Supported quorum (leader low) (voting low))
    (known : dag.Known (leader high)) : dag.sequence leader high = dag.sequence leader low ++
        (dag.committed leader low (leader high) (high - 1) ++ [leader high]) := by
  obtain ⟨wave, rfl⟩ : ∃ wave, high = wave + 1 := ⟨high - 1, by omega⟩
  rcases Nat.eq_zero_or_pos low with zero | positive
  · subst zero
    simp [sequence]
  have step := committed_eq_sequence_append intersecting dense ordered positive
    (votingPositive positive) (supported positive) wave (by omega) (leader (wave + 1)) known
    (ordered low (wave + 1) (by omega))
  simp [sequence, step]

theorem sequence_prefix {high : Nat} (le : low ≤ high) (votingPositive : 0 < low → 0 < voting low)
    (supported : 0 < low → dag.Supported quorum (leader low) (voting low))
    (known : 0 < high → dag.Known (leader high)) :
    dag.sequence leader low <+: dag.sequence leader high := by
  rcases Nat.lt_or_eq_of_le le with less | same
  · rw [sequence_eq_append intersecting dense ordered less votingPositive supported
      (known (by omega))]
    exact prefix_append _ _
  · rw [same]

end

/-- Where a leader is committed, what is committed below it is what a walk down from it commits,
and what comes after it belongs to later waves. -/
theorem committed_split {wave : Nat} {vertex : V}
    (inside : member ∈ dag.committed leader floor vertex wave) :
    ∃ own, 0 < own ∧ own ≤ wave ∧ member = leader own ∧ ∃ rest,
      dag.committed leader floor vertex wave =
        dag.committed leader floor (leader own) (own - 1) ++ leader own :: rest ∧
      ∀ other ∈ rest, ∃ later, own < later ∧ later ≤ wave ∧ other = leader later := by
  induction wave generalizing vertex with
  | zero => cases inside
  | succ wave ih =>
    unfold committed at inside
    split at inside
    · cases inside
    rename_i high
    split at inside
    · next reached =>
      rcases mem_append.mp inside with below | isLast
      · obtain ⟨own, positive, low, isOwn, rest, split, late⟩ := ih below
        refine ⟨own, positive, by omega, isOwn, rest ++ [leader (wave + 1)], ?_, ?_⟩
        · simp only [committed, if_neg high, if_pos reached, split, append_assoc, cons_append]
        intro other isOther
        rcases mem_append.mp isOther with old | new
        · obtain ⟨later, after, bound, isLater⟩ := late other old
          exact ⟨later, after, by omega, isLater⟩
        · exact ⟨wave + 1, by omega, le_rfl, mem_singleton.mp new⟩
      refine ⟨wave + 1, by omega, le_rfl, mem_singleton.mp isLast, [], ?_, ?_⟩
      · simp only [committed, if_neg high, if_pos reached, Nat.add_sub_cancel]
      · intro other impossible
        cases impossible
    rename_i unreached
    obtain ⟨own, positive, low, isOwn, rest, split, late⟩ := ih inside
    refine ⟨own, positive, by omega, isOwn, rest, ?_, ?_⟩
    · rw [← split]
      simp only [committed, if_neg high, if_neg unreached]
    intro other isOther
    obtain ⟨later, after, bound, isLater⟩ := late other isOther
    exact ⟨later, after, by omega, isLater⟩

theorem committed_reached {wave : Nat} {vertex : V}
    (inside : member ∈ dag.committed leader floor vertex wave) : dag.Reaches vertex member := by
  induction wave generalizing vertex with
  | zero => cases inside
  | succ wave ih =>
    unfold committed at inside
    split at inside
    · cases inside
    split at inside
    · next reached =>
      rcases mem_append.mp inside with below | isLast
      · exact reached.trans (ih below)
      · exact mem_singleton.mp isLast ▸ reached
    · exact ih inside

section

variable
  (rising : ∀ first second, 0 < first → first < second →
    round (leader first) < round (leader second))

include rising

/-- A committed leader is in the chain of every later one. -/
theorem sequence_chain {wave : Nat} {early late : V} (isEarly : early ∈ dag.sequence leader wave)
    (isLate : late ∈ dag.sequence leader wave) (less : round early < round late) :
    ∃ own, late = leader own ∧ early ∈ dag.committed leader 0 late (own - 1) := by
  rw [sequence_eq_committed] at isEarly isLate
  obtain ⟨own, positive, _, rfl, rest, split, later⟩ := committed_split isLate
  refine ⟨own, rfl, ?_⟩
  rw [split] at isEarly
  rcases mem_append.mp isEarly with below | above
  · exact below
  rcases mem_cons.mp above with same | after
  · rw [same] at less
    exact absurd less (lt_irrefl _)
  · obtain ⟨wave', above', _, rfl⟩ := later early after
    exact absurd (less.trans (rising own wave' positive above')) (lt_irrefl _)

theorem committed_rising (wave : Nat) (vertex : V) :
    (dag.committed leader floor vertex wave).Pairwise fun early late =>
      round early < round late := by
  induction wave generalizing vertex with
  | zero => exact List.Pairwise.nil
  | succ wave ih =>
    unfold committed
    split
    · exact List.Pairwise.nil
    split
    · refine pairwise_append.mpr ⟨ih _, pairwise_singleton _ _, ?_⟩
      intro early isEarly late isLate
      obtain ⟨own, positive, low, rfl, _⟩ := committed_split isEarly
      rw [mem_singleton.mp isLate]
      exact rising own (wave + 1) positive (by omega)
    · exact ih vertex

theorem sequence_rising (wave : Nat) :
    (dag.sequence leader wave).Pairwise fun early late => round early < round late := by
  rw [sequence_eq_committed]
  exact committed_rising rising _ _

end

open Classical in
/-- The leaders that deciding a wave commits: none unless its leader is known and a quorum of the
voting round reaches it, and otherwise the leader after all those that the walk down from it
commits. -/
noncomputable def decision (dag : RoundDag V round) (quorum : Finset V → Prop) (leader : Nat → V)
    (voting : Nat → Nat) (floor wave : Nat) : List V :=
  if dag.Known (leader wave) ∧ dag.Supported quorum (leader wave) (voting wave) then
    dag.committed leader floor (leader wave) (wave - 1) ++ [leader wave]
  else []

end Leaders

end RoundDag
end Abcperf.Lib
