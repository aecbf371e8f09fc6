import Mathlib.Data.Finset.Basic

/-! Safety of chained voting. Every block above the genesis block is justified by votes of the view
before its own: either a quorum has prepared the justifying block in that view, or it is the latest
block on which a member of a quorum was locked. A replica locks what justifies a block that it
prepares if the block follows it directly. A block is committed once a quorum has prepared a direct
successor; all later blocks then descend from it, because a quorum stays locked on it. -/

namespace Abcperf.Lib

open List

structure ThreeChain (Replica Block : Type) where
  genesis : Block
  view : Block → Nat
  justified : Block → Block → Prop
  direct : Block → Prop
  prepared : Replica → Nat → Block → Prop
  locked : Replica → Nat → Block → Prop
  quorum : Finset Replica → Prop

namespace ThreeChain

variable {Replica Block : Type} (chain : ThreeChain Replica Block)

def Certified (view : Nat) (block : Block) : Prop :=
  ∃ votes, chain.quorum votes ∧ ∀ replica ∈ votes, chain.prepared replica view block

/-- `block` is the latest one on which a member of some quorum was locked in `view`. -/
def Highest (view : Nat) (block : Block) : Prop :=
  ∃ votes, chain.quorum votes ∧ (∃ replica ∈ votes, chain.locked replica view block) ∧
    ∀ replica ∈ votes, ∃ other, chain.locked replica view other ∧
      chain.view other ≤ chain.view block

def Committed (block : Block) : Prop :=
  ∃ successor, chain.justified successor block ∧ chain.direct successor ∧
    chain.Certified (chain.view successor) successor

inductive Descends (ancestor : Block) : Block → Prop
  | refl : Descends ancestor ancestor
  | step {block below : Block} (link : chain.justified block below)
      (descends : Descends ancestor below) : Descends ancestor block

inductive Chain : Block → List Block → Prop
  | root : Chain chain.genesis []
  | step {block below : Block} {blocks : List Block} (before : Chain below blocks)
      (link : chain.justified block below) : Chain block (blocks ++ [block])

structure Lawful : Prop where
  root : ∀ {block}, chain.view block = 0 ↔ block = chain.genesis
  intersecting : ∀ {left right}, chain.quorum left → chain.quorum right →
    ∃ replica ∈ left, replica ∈ right
  prepared_view : ∀ {replica view block}, chain.prepared replica view block →
    chain.view block = view
  prepared_unique : ∀ {replica view left right}, chain.prepared replica view left →
    chain.prepared replica view right → left = right
  prepared_justified : ∀ {replica view block}, chain.prepared replica view block → 0 < view →
    ∃ below, chain.justified block below
  justified_unique : ∀ {block left right}, chain.justified block left →
    chain.justified block right → left = right
  justified_view : ∀ {block below}, chain.justified block below → 0 < chain.view block
  named : ∀ {block below view}, chain.justified block below → chain.view block = view + 1 →
    chain.Certified view below ∨ chain.Highest view below
  direct_view : ∀ {block below}, chain.direct block → chain.justified block below →
    chain.view below + 1 = chain.view block
  origin : ∀ {replica view block}, chain.locked replica view block → block = chain.genesis ∨
    ∃ successor, chain.view successor ≤ view ∧ chain.direct successor ∧
      chain.justified successor block
  keeps : ∀ {replica view block successor earlier}, chain.locked replica view block →
    chain.prepared replica earlier successor → earlier ≤ view → chain.direct successor →
    earlier ≤ chain.view block + 1

variable {chain}
  {view : Nat} {block : Block} {blocks : List Block}

section

variable (lawful : chain.Lawful)

include lawful

theorem Lawful.locked_view {replica : Replica} (locked : chain.locked replica view block)
    (above : block ≠ chain.genesis) : chain.view block < view := by
  rcases lawful.origin locked with isGenesis | ⟨successor, earlier, direct, link⟩
  · exact absurd isGenesis above
  · have := lawful.direct_view direct link
    omega

theorem Lawful.certified_unique {left right : Block} (isLeft : chain.Certified view left)
    (isRight : chain.Certified view right) : left = right := by
  obtain ⟨leftVotes, leftQuorum, leftPrepared⟩ := isLeft
  obtain ⟨rightVotes, rightQuorum, rightPrepared⟩ := isRight
  obtain ⟨replica, inLeft, inRight⟩ := lawful.intersecting leftQuorum rightQuorum
  exact lawful.prepared_unique (leftPrepared replica inLeft) (rightPrepared replica inRight)

theorem Lawful.certified_prepared (certified : chain.Certified view block) :
    ∃ replica, chain.prepared replica view block := by
  obtain ⟨votes, isQuorum, prepared⟩ := certified
  obtain ⟨replica, member, -⟩ := lawful.intersecting isQuorum isQuorum
  exact ⟨replica, prepared replica member⟩

/-- What justifies its direct successor has been prepared by a quorum in its own view: in that view
nobody could be locked on it yet. -/
theorem Lawful.direct_certified {successor : Block} (direct : chain.direct successor)
    (link : chain.justified successor block) (above : block ≠ chain.genesis) :
    chain.Certified (chain.view block) block := by
  have follows := lawful.direct_view direct link
  rcases lawful.named link follows.symm with certified | ⟨votes, -, ⟨replica, -, locked⟩, -⟩
  · exact certified
  · exact absurd (lawful.locked_view locked above) (lt_irrefl _)

theorem Lawful.locked_certified {replica : Replica} (locked : chain.locked replica view block)
    (above : block ≠ chain.genesis) : chain.Certified (chain.view block) block := by
  rcases lawful.origin locked with isGenesis | ⟨successor, -, direct, link⟩
  · exact absurd isGenesis above
  · exact lawful.direct_certified direct link above

theorem Lawful.below {below : Block} (link : chain.justified block below) :
    chain.view below < chain.view block := by
  obtain ⟨view, atView⟩ : ∃ view, chain.view block = view + 1 :=
    ⟨chain.view block - 1, by have := lawful.justified_view link; omega⟩
  rcases lawful.named link atView with certified | ⟨votes, -, ⟨replica, -, locked⟩, -⟩
  · obtain ⟨replica, prepared⟩ := lawful.certified_prepared certified
    have := lawful.prepared_view prepared
    omega
  by_cases isGenesis : below = chain.genesis
  · have := lawful.root.mpr isGenesis
    omega
  · have := lawful.locked_view locked isGenesis
    omega

/-- The step of the induction below: a certified block above the successor descends, because it is
justified by a block that does. -/
theorem Lawful.certified_descends {successor other : Block} (link : chain.justified successor block)
    (follows : chain.view block + 1 = chain.view successor)
    (certified : chain.Certified (chain.view successor) successor)
    (earlier : ∀ below, chain.justified other below → chain.view block + 2 ≤ chain.view other →
      chain.Descends block below) (isCertified : chain.Certified (chain.view other) other)
    (above : chain.view block < chain.view other) : chain.Descends block other := by
  rcases Nat.lt_or_ge (chain.view successor) (chain.view other) with later | notLater
  · obtain ⟨replica, prepared⟩ := lawful.certified_prepared isCertified
    obtain ⟨below, isBelow⟩ := lawful.prepared_justified prepared (by omega)
    exact .step isBelow (earlier below isBelow (by omega))
  have sameView : chain.view other = chain.view successor := by omega
  rw [sameView] at isCertified
  rw [lawful.certified_unique isCertified certified]
  exact .step link .refl

/-- Whatever justifies a block two views above a committed one descends from it. The induction is
on the view; a quorum that prepared the successor meets every quorum of a later view. -/
theorem Lawful.committed_descends (committed : chain.Committed block) :
    ∀ later below : Block, chain.justified later below →
      chain.view block + 2 ≤ chain.view later → chain.Descends block below := by
  obtain ⟨successor, link, direct, certified⟩ := committed
  have follows := lawful.direct_view direct link
  suffices claim : ∀ view later below, chain.view later = view → chain.justified later below →
      chain.view block + 2 ≤ chain.view later → chain.Descends block below from
    fun later below isBelow above => claim _ later below rfl isBelow above
  intro view
  induction view using Nat.strong_induction_on with
  | _ view ih =>
    intro later below atView isBelow above
    have lower := lawful.below isBelow
    have earlier : ∀ other, chain.justified below other →
        chain.view block + 2 ≤ chain.view below → chain.Descends block other :=
      fun other isOther => ih (chain.view below) (by omega) below other rfl isOther
    have descends := lawful.certified_descends link follows certified earlier
    rcases lawful.named isBelow (show chain.view later = chain.view later - 1 + 1 by omega) with
      isCertified | ⟨votes, isQuorum, ⟨holder, -, locked⟩, highest⟩
    · obtain ⟨replica, prepared⟩ := lawful.certified_prepared isCertified
      have inView := lawful.prepared_view prepared
      rw [← inView] at isCertified
      exact descends isCertified (by omega)
    -- a member of the quorum has prepared the successor and kept its lock
    obtain ⟨prepares, preparesQuorum, preparedAll⟩ := certified
    obtain ⟨replica, inPrepares, inVotes⟩ := lawful.intersecting preparesQuorum isQuorum
    obtain ⟨other, isLocked, notHigher⟩ := highest replica inVotes
    have kept := lawful.keeps isLocked (preparedAll replica inPrepares) (by omega) direct
    by_cases isGenesis : below = chain.genesis
    · have isRoot := lawful.root.mpr isGenesis
      have same : block = chain.genesis := lawful.root.mp (by omega)
      rw [isGenesis, ← same]
      exact .refl
    have isCertified := lawful.locked_certified locked isGenesis
    rcases Nat.lt_or_ge (chain.view block) (chain.view below) with higher | notAbove
    · exact descends isCertified higher
    have sameView : chain.view below = chain.view block := by omega
    have notRoot : block ≠ chain.genesis := fun isRoot => isGenesis
      (lawful.root.mp (sameView.trans (lawful.root.mpr isRoot)))
    have blockCertified := lawful.direct_certified direct link notRoot
    rw [sameView] at isCertified
    rw [lawful.certified_unique isCertified blockCertified]
    exact .refl

theorem Lawful.committed_certified (committed : chain.Committed block)
    (above : block ≠ chain.genesis) : chain.Certified (chain.view block) block := by
  obtain ⟨successor, link, direct, -⟩ := committed
  exact lawful.direct_certified direct link above

theorem Lawful.committed_below {low high : Block} (lowCommitted : chain.Committed low)
    (highCommitted : chain.Committed high) (order : chain.view low ≤ chain.view high) :
    chain.Descends low high := by
  by_cases isGenesis : high = chain.genesis
  · have isRoot := lawful.root.mpr isGenesis
    have same : low = chain.genesis := lawful.root.mp (by omega)
    rw [isGenesis, same]
    exact .refl
  have isCertified := lawful.committed_certified highCommitted isGenesis
  rcases Nat.lt_or_ge (chain.view low) (chain.view high) with above | notAbove
  · have descends := lawful.committed_descends lowCommitted
    obtain ⟨successor, link, direct, certified⟩ := lowCommitted
    exact lawful.certified_descends link (lawful.direct_view direct link) certified
      (descends high) isCertified above
  have sameView : chain.view low = chain.view high := by omega
  have notRoot : low ≠ chain.genesis := fun isRoot => isGenesis
    (lawful.root.mp (sameView.symm.trans (lawful.root.mpr isRoot)))
  have lowCertified := lawful.committed_certified lowCommitted notRoot
  rw [sameView] at lowCertified
  rw [lawful.certified_unique lowCertified isCertified]
  exact .refl

theorem Lawful.chain_unique {left right : List Block} (isLeft : chain.Chain block left)
    (isRight : chain.Chain block right) : left = right := by
  induction isLeft generalizing right with
  | root =>
    cases isRight with
    | root => rfl
    | step before link => exact absurd (lawful.root.mpr rfl) (lawful.justified_view link).ne'
  | step before link ih =>
    cases isRight with
    | root => exact absurd (lawful.root.mpr rfl) (lawful.justified_view link).ne'
    | step otherBefore otherLink =>
      have same := lawful.justified_unique link otherLink
      subst same
      rw [ih otherBefore]

theorem Lawful.chain_prefix {ancestor : Block} {short long : List Block}
    (descends : chain.Descends ancestor block) (isShort : chain.Chain ancestor short)
    (isLong : chain.Chain block long) : short <+: long := by
  induction descends generalizing long with
  | refl =>
    rw [lawful.chain_unique isShort isLong]
  | step link descends ih =>
    cases isLong with
    | root => exact absurd (lawful.root.mpr rfl) (lawful.justified_view link).ne'
    | step before otherLink =>
      have same := lawful.justified_unique link otherLink
      subst same
      exact (ih before).trans (prefix_append _ _)

/-- The chains of two committed blocks are comparable. -/
theorem Lawful.committed_prefix {left right : Block} {leftChain rightChain : List Block}
    (leftCommitted : chain.Committed left) (rightCommitted : chain.Committed right)
    (isLeft : chain.Chain left leftChain) (isRight : chain.Chain right rightChain) :
    leftChain <+: rightChain ∨ rightChain <+: leftChain := by
  rcases Nat.le_total (chain.view left) (chain.view right) with order | order
  · exact .inl (lawful.chain_prefix (lawful.committed_below leftCommitted rightCommitted order)
      isLeft isRight)
  · exact .inr (lawful.chain_prefix (lawful.committed_below rightCommitted leftCommitted order)
      isRight isLeft)

theorem Lawful.chain_ascending (isChain : chain.Chain block blocks) :
    blocks.Pairwise (fun low high => chain.view low < chain.view high) ∧
      ∀ other ∈ blocks, chain.view other ≤ chain.view block := by
  induction isChain with
  | root => exact ⟨List.Pairwise.nil, by simp⟩
  | step _ link ih =>
    obtain ⟨ascending, below⟩ := ih
    have less := lawful.below link
    constructor
    · rw [pairwise_append]
      refine ⟨ascending, pairwise_singleton _ _, ?_⟩
      intro low isLow high isHigh
      rw [mem_singleton.mp isHigh]
      exact lt_of_le_of_lt (below low isLow) less
    intro other member
    rcases mem_append.mp member with earlier | isLast
    · exact le_of_lt (lt_of_le_of_lt (below other earlier) less)
    · exact Nat.le_of_eq (congrArg chain.view (mem_singleton.mp isLast))

end

theorem Chain.split {other : Block} (isChain : chain.Chain block blocks) (member : other ∈ blocks) :
    ∃ before after, blocks = before ++ after ∧ chain.Chain other before := by
  induction isChain with
  | root => cases member
  | step before link ih =>
    rcases mem_append.mp member with earlier | isLast
    · obtain ⟨front, rest, rfl, isFront⟩ := ih earlier
      exact ⟨front, rest ++ [_], by rw [append_assoc], isFront⟩
    · rw [mem_singleton.mp isLast]
      exact ⟨_, [], (append_nil _).symm, .step before link⟩

/-- Of two sequences without a common element only the empty one is a prefix of the other. -/
theorem nil_of_disjoint {left right : List Block} (isPrefix : left <+: right)
    (disjoint : ∀ block ∈ left, block ∉ right) : left = [] := by
  cases left with
  | nil => rfl
  | cons block rest =>
    exact absurd (isPrefix.subset mem_cons_self) (disjoint block mem_cons_self)

/-- An observer who has executed a committed chain and now finds another committed block, with what
lies between it and the executed part, either has executed it already or continues its chain. -/
theorem Lawful.extend (lawful : chain.Lawful) {stop : Block} {executed : List Block}
    (before : executed = [] ∨ ∃ top, chain.Committed top ∧ chain.Chain top executed)
    (committed : chain.Committed block) (reached : stop = chain.genesis ∨ stop ∈ executed)
    (continues : ∀ below, chain.Chain stop below → chain.Chain block (below ++ blocks))
    (fresh : ∀ other ∈ blocks, other ∉ executed) :
    blocks = [] ∨ chain.Chain block (executed ++ blocks) := by
  rcases before with rfl | ⟨top, topCommitted, isChain⟩
  · rcases reached with rfl | impossible
    · exact .inr (continues [] .root)
    · cases impossible
  obtain ⟨below, above, rfl, isBelow⟩ : ∃ below above, executed = below ++ above ∧
      chain.Chain stop below := by
    rcases reached with rfl | member
    · exact ⟨[], executed, rfl, .root⟩
    · exact isChain.split member
  have isBlock := continues below isBelow
  have apart : ∀ other ∈ blocks, other ∉ above :=
    fun other member inAbove => fresh other member (mem_append_right _ inAbove)
  rcases lawful.committed_prefix topCommitted committed isChain isBlock with shorter | longer
  · rw [prefix_append_right_inj] at shorter
    have nothing := nil_of_disjoint shorter fun other member inBlocks =>
      apart other inBlocks member
    rw [nothing, append_nil]
    exact .inr isBlock
  · rw [prefix_append_right_inj] at longer
    exact .inl (nil_of_disjoint longer apart)

end ThreeChain

end Abcperf.Lib
