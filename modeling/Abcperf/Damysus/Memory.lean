import Abcperf.Lib.Majority
import Abcperf.Damysus.NonEquivocation

/-! The prepared block that an enclave remembers. Its view is the one that the accumulator of the
previous view names, and an accumulator looks at a quorum only: an enclave that is not part of that
quorum may be sent back to an older block. What a quorum remembers is not lost. -/

namespace Abcperf.Damysus

open Lib Lib.Outcome Symbolic Function Enclave List Option

variable {P : Platform}

namespace EnclaveAutomata

variable {automata next : EnclaveAutomata P}

theorem Signs.memory {request : EnclaveCall P} {result : SignedCommitment P}
    (signs : automata.Signs request next result) (usig : result.isUsig = true) :
    result.getPreparedBlockView = next.lastPreparedBlockView := by
  cases signs with
  | accumulated nonempty follows within accumulates creator inView isAccumulator =>
    exact absurd usig (result.not_usig isAccumulator)
  | prepared checks made => simp [SignedCommitment.getPreparedBlockView, made, commitment, voted]
  | reSigned made => simp [SignedCommitment.getPreparedBlockView, made, commitment, voted]

/-- A call leaves the view and the memory, or it moves to the next view and leaves the memory, or it
takes what a valid accumulator of the previous view names. -/
theorem Performs.memory {request : EnclaveCall P} (performs : automata.Performs request next) :
    (next.view = automata.view ∧ next.lastPreparedBlockView = automata.lastPreparedBlockView) ∨
      next.view = automata.view + 1 ∧ (next.lastPreparedBlockView = automata.lastPreparedBlockView ∨
          ∃ blockView blockHash accumulator parent justificationBlockHash,
            request = .prepare blockView blockHash (.quorum accumulator) parent
              justificationBlockHash ∧
            automata.Preparable blockView accumulator justificationBlockHash ∧
            next.lastPreparedBlockView = accumulator.getBlockView) := by
  cases performs with
  | nothing => exact .inl ⟨rfl, rfl⟩
  | accumulated => exact .inl ⟨rfl, rfl⟩
  | @prepared blockView blockHash justificationBlockHash accumulator parent checks =>
    refine .inr ⟨by simp [voted], ?_⟩
    by_cases direct : parent = some accumulator.getBlockHash
    · exact .inr ⟨blockView, blockHash, accumulator, parent, justificationBlockHash, rfl,
        checks, by simp [voted, lockedOn, direct]⟩
    · exact .inl (by simp [voted, lockedOn, direct])
  | reSigned => exact .inr ⟨rfl, .inl rfl⟩

end EnclaveAutomata

namespace Session

/-- Hosts are free in what they call, but every commitment they pass is one that was returned. -/
def Faithful (setup : SessionSetup P) (session : Session P) : SessionEvent P → Prop
  | .call id (.accumulate commitments) =>
    id < setup.n ∧ ∀ signed ∈ commitments, session.Returned signed
  | .call id (.prepare _ _ (.quorum accumulator) _ _) =>
    id < setup.n ∧ session.Returned accumulator
  | .call id _ => id < setup.n
  | _ => True

variable {setup : SessionSetup P} {session next : Session P} {view : Nat}
  {votes : List (SignedCommitment P)} {vote : SignedCommitment P} {enclave : Enclave P}
  {result : EnclaveResult P (SignedCommitment P)}

theorem Faithful.host {id : Nat} {request : EnclaveCall P}
    (faithful : Faithful setup session (.call id request)) : id < setup.n := by
  rcases request with _ | ⟨_, _, _ | _, _, _⟩ | _
  · exact faithful.1
  · exact faithful
  · exact faithful.1
  · exact faithful

/-- A quorum of votes for `view`, each by another enclave, leads to the block view `value`: all of
them are for a block of the view itself, or it is the highest view that one of them reports. -/
structure Gathered (setup : SessionSetup P) (session : Session P) (view value : Nat)
    (votes : List (SignedCommitment P)) : Prop where
  returned : ∀ vote ∈ votes, session.Returned vote
  usig : ∀ vote ∈ votes, vote.isUsig = true
  inView : ∀ vote ∈ votes, vote.getView = view
  distinct : (votes.map SignedCommitment.getCreator).Nodup
  enough : setup.quorum ≤ votes.length
  names : value = view ∨ ∃ highest ∈ votes, value = highest.getPreparedBlockView ∧
    ∀ vote ∈ votes, vote.getPreparedBlockView ≤ highest.getPreparedBlockView

/-- The votes are those that a call of `accumulate` has looked at, from the last one on. -/
def Looked (call : EnclaveCall P) (votes : List (SignedCommitment P)) : Prop :=
  ∃ commitments, call = .accumulate commitments ∧ votes <+: commitments.reverse

/-- A `prepare` call takes over what an accumulator of the previous view names, and an enclave has
made this accumulator from `votes`. -/
inductive TakesOver (setup : SessionSetup P) (session : Session P) (id : Nat) :
    SessionEvent P → Nat → List (SignedCommitment P) → Prop
  | prepare {blockView value other : Nat} {blockHash justificationBlockHash : P.BlockHash}
      {parent : Option P.BlockHash} {accumulator : Record P} {votes : List (SignedCommitment P)}
      (logged : accumulator ∈ (session.enclaves other).log)
      (looked : Looked accumulator.call votes)
      (follows : accumulator.result.getView + 1 = (session.enclaves id).automata.view)
      (takes : value = accumulator.result.getBlockView)
      (gathered : Gathered setup session accumulator.result.getView value votes) :
      TakesOver setup session id (.call id (.prepare blockView blockHash
        (.quorum accumulator.result) parent justificationBlockHash)) value votes

theorem TakesOver.gathers {id value : Nat} {event : SessionEvent P}
    (takesOver : TakesOver setup session id event value votes) :
    ∃ view, view + 1 = (session.enclaves id).automata.view ∧
      Gathered setup session view value votes := by
  cases takesOver with
  | prepare logged looked follows takes gathered => exact ⟨_, follows, gathered⟩

/-- No vote reports more than the value, unless all of them are for a block of their own view. -/
theorem Gathered.above {value : Nat} (gathered : Gathered setup session view value votes)
    (member : vote ∈ votes) : value = view ∨ vote.getPreparedBlockView ≤ value := by
  rcases gathered.names with same | ⟨highest, _, same, above⟩
  · exact .inl same
  · exact .inr (same ▸ above vote member)

/-- What is known of an enclave. `memory view` is what it remembered after its call for `view`. -/
structure Recorded (setup : SessionSetup P) (session : Session P) (id : Nat) (enclave : Enclave P)
    (memory : Nat → Nat) : Prop where
  traced : enclave.Traced id
  quorum : enclave.automata.quorum = setup.quorum
  hosts : ∀ record ∈ enclave.log, id < setup.n
  accumulators : ∀ record ∈ enclave.log, record.result.isAccumulator = true →
    ∃ votes, Looked record.call votes ∧
      Gathered setup session record.result.getView record.result.getBlockView votes
  first : memory 0 = 0
  fresh : enclave.automata.view = 0 → enclave.automata.lastPreparedBlockView = 0
  current : ∀ view, enclave.automata.view = view + 1 →
    enclave.automata.lastPreparedBlockView = memory view
  votes : ∀ record ∈ enclave.log, record.result.isUsig = true →
    record.result.getPreparedBlockView = memory record.result.getView
  follows : ∀ view, view + 1 < enclave.automata.view →
    memory (view + 1) = memory view ∨
      ∃ votes, Gathered setup session view (memory (view + 1)) votes

def Chronicled (setup : SessionSetup P) (session : Session P) : Prop :=
  ∀ id, ∃ memory, Recorded setup session id (session.enclaves id) memory

def Grows (session next : Session P) : Prop :=
  ∀ id, ∀ record ∈ (session.enclaves id).log, record ∈ (next.enclaves id).log

theorem Gathered.grow {value : Nat} (gathered : Gathered setup session view value votes)
    (grows : session.Grows next) : Gathered setup next view value votes :=
  { gathered with
    returned := fun vote member => by
      obtain ⟨id, record, logged, same⟩ := gathered.returned vote member
      exact ⟨id, record, grows id record logged, same⟩ }

variable {id : Nat} {memory : Nat → Nat} {request : EnclaveCall P}

theorem Recorded.grow (recorded : Recorded setup session id enclave memory)
    (grows : session.Grows next) : Recorded setup next id enclave memory :=
  { recorded with
    accumulators := fun record logged isAccumulator =>
      (recorded.accumulators record logged isAccumulator).imp fun _ => .imp_right (·.grow grows)
    follows := fun view earlier =>
      (recorded.follows view earlier).imp_right fun ⟨votes, gathered⟩ =>
        ⟨votes, gathered.grow grows⟩ }

theorem acted_self (session : Session P) (id : Nat) (enclave : Enclave P) :
    (session.acted id enclave).enclaves id = enclave := update_self ..

theorem Chronicled.acted (chronicled : Chronicled setup session)
    (grows : ∀ record ∈ (session.enclaves id).log, record ∈ enclave.log)
    (recorded : ∃ memory, Recorded setup session id enclave memory) :
    Chronicled setup (session.acted id enclave) := by
  have each : ∀ other, (∀ record ∈ (session.enclaves other).log,
      record ∈ ((session.acted id enclave).enclaves other).log) ∧
      ∃ memory, Recorded setup session other
        ((session.acted id enclave).enclaves other) memory := by
    intro other
    by_cases same : other = id
    · subst same
      rw [acted_self]
      exact ⟨grows, recorded⟩
    rw [show (session.acted id enclave).enclaves other = session.enclaves other from
      update_of_ne same ..]
    exact ⟨fun _ logged => logged, chronicled other⟩
  exact fun other => (each other).2.imp fun _ known => known.grow fun id => (each id).1

/-- What a faithful call makes an enclave remember, if it moves on to the next view. -/
theorem Chronicled.value (chronicled : Chronicled setup session)
    (faithful : Faithful setup session (.call id request))
    (run : (session.enclaves id).call request = .ok (enclave, result)) :
    (enclave.automata.view = (session.enclaves id).automata.view ∧
      enclave.automata.lastPreparedBlockView =
        (session.enclaves id).automata.lastPreparedBlockView) ∨
    enclave.automata.view = (session.enclaves id).automata.view + 1 ∧
      (enclave.automata.lastPreparedBlockView =
          (session.enclaves id).automata.lastPreparedBlockView ∨
        ∃ votes, TakesOver setup session id (.call id request)
          enclave.automata.lastPreparedBlockView votes) := by
  rcases (call_performs run).memory with stays | ⟨advanced, keeps | locks⟩
  · exact .inl stays
  · exact .inr ⟨advanced, .inl keeps⟩
  obtain ⟨blockView, blockHash, accumulator, parent, justificationBlockHash, rfl, checks, takes⟩ :=
    locks
  -- an accumulator that was returned stands for a quorum of votes
  obtain ⟨other, record, logged, rfl⟩ := faithful.2
  obtain ⟨votes, looked, gathered⟩ :=
    (chronicled other).choose_spec.accumulators record logged checks.accumulates
  exact .inr ⟨advanced, .inr ⟨votes, .prepare logged looked checks.usable takes
    (takes ▸ gathered)⟩⟩

theorem Recorded.accumulated (recorded : Recorded setup session id (session.enclaves id) memory)
    (faithful : Faithful setup session (.call id request)) {next : EnclaveAutomata P}
    {signed : SignedCommitment P} (signs : (session.enclaves id).automata.Signs request next signed)
    (isAccumulator : signed.isAccumulator = true) :
    ∃ votes, Looked request votes ∧
      Gathered setup session signed.getView signed.getBlockView votes := by
  obtain ⟨commitments, rfl⟩ := signs.accumulator isAccumulator
  cases signs with
  | @accumulated _ considered view _ _ _ within accumulates _ inView _ =>
    refine ⟨considered, ⟨commitments, rfl, within⟩, ?_, ?_, ?_, accumulates.distinct, ?_, ?_⟩
    · exact fun vote member => faithful.2 vote (mem_reverse.mp (within.subset member))
    · exact fun vote member => (accumulates.counts vote member).usig
    · exact fun vote member => inView ▸ (accumulates.counts vote member).inView
    · exact recorded.quorum ▸ accumulates.enough
    rcases accumulates.names with ⟨here, _⟩ | ⟨highest, member, same, _, above⟩
    · exact .inl (here.trans inView.symm)
    · exact .inr ⟨highest, member, same, above⟩

theorem Chronicled.call (chronicled : Chronicled setup session)
    (faithful : Faithful setup session (.call id request))
    (run : (session.enclaves id).call request = .ok (enclave, result)) :
    Chronicled setup (session.acted id enclave) := by
  obtain ⟨memory, recorded⟩ := chronicled id
  obtain ⟨continues, outcome⟩ := call_cases run
  -- the log grows by at most one record, which the enclave has just signed
  have records : ∀ record ∈ enclave.log, record ∈ (session.enclaves id).log ∨
      record.call = request ∧
        (session.enclaves id).automata.Signs request enclave.automata record.result := by
    intro record logged
    rcases outcome with ⟨sameLog, _⟩ | ⟨signed, _, grown, signs⟩
    · exact .inl (sameLog ▸ logged)
    rw [grown, mem_append, mem_singleton] at logged
    rcases logged with earlier | rfl
    · exact .inl earlier
    · exact .inr ⟨rfl, signs⟩
  have grows : ∀ record ∈ (session.enclaves id).log, record ∈ enclave.log := by
    intro record logged
    rcases outcome with ⟨sameLog, _⟩ | ⟨signed, _, grown, _⟩
    · exact sameLog ▸ logged
    · exact grown ▸ mem_append_left _ logged
  have traced := call_traced recorded.traced run
  have quorum := continues.quorum.trans recorded.quorum
  have hosts : ∀ record ∈ enclave.log, id < setup.n := fun _ _ => faithful.host
  have accumulators : ∀ record ∈ enclave.log, record.result.isAccumulator = true →
      ∃ votes, Looked record.call votes ∧
        Gathered setup session record.result.getView record.result.getBlockView votes := by
    intro record logged isAccumulator
    rcases records record logged with earlier | ⟨called, signs⟩
    · exact recorded.accumulators record earlier isAccumulator
    · exact called ▸ recorded.accumulated faithful signs isAccumulator
  refine chronicled.acted grows ?_
  rcases chronicled.value faithful run with ⟨stays, same⟩ | ⟨advanced, value⟩
  · refine ⟨memory, traced, quorum, hosts, accumulators, recorded.first, ?_, ?_, ?_, ?_⟩
    · exact fun start => same.trans (recorded.fresh (stays ▸ start))
    · exact fun view here => same.trans (recorded.current view (stays ▸ here))
    · intro record logged usig
      rcases records record logged with earlier | ⟨-, signs⟩
      · exact recorded.votes record earlier usig
      · have moved := (signs.vote usig).2
        omega
    · exact fun view earlier => recorded.follows view (stays ▸ earlier)
  -- what the enclave remembers now is entered for its view
  refine ⟨update memory (session.enclaves id).automata.view
    enclave.automata.lastPreparedBlockView, traced, quorum, hosts, accumulators, ?_, ?_, ?_, ?_, ?_⟩
  · by_cases start : (session.enclaves id).automata.view = 0
    · rcases value with same | ⟨_, takesOver⟩
      · rw [start, update_self, same, recorded.fresh start]
      · obtain ⟨view, follows, -⟩ := takesOver.gathers
        omega
    · rw [update_of_ne (Ne.symm start), recorded.first]
  · intro start
    omega
  · intro view here
    rw [show view = (session.enclaves id).automata.view by omega, update_self]
  · intro record logged usig
    rcases records record logged with earlier | ⟨-, signs⟩
    · have below := recorded.traced.below record earlier
      rw [update_of_ne (ne_of_lt below), recorded.votes record earlier usig]
    · rw [(signs.vote usig).1, update_self, signs.memory usig]
  intro view earlier
  rw [update_of_ne (by omega : view ≠ (session.enclaves id).automata.view)]
  by_cases now : view + 1 = (session.enclaves id).automata.view
  · rw [now, update_self]
    rcases value with same | ⟨votes, takesOver⟩
    · exact .inl (same.trans (recorded.current view now.symm))
    · obtain ⟨before, follows, gathered⟩ := takesOver.gathers
      obtain rfl : before = view := by omega
      exact .inr ⟨votes, gathered⟩
  · rw [update_of_ne now]
    exact recorded.follows view (by omega)

theorem step_chronicled {event : SessionEvent P} (chronicled : Chronicled setup session)
    (faithful : Faithful setup session event) (step : Step session event next) :
    Chronicled setup next := by
  cases step with
  | @addPeer id peer key enclave run =>
    obtain ⟨memory, recorded⟩ := chronicled id
    have traced := addPeer_traced recorded.traced run
    obtain ⟨trusted, rfl⟩ := addPeer_ok run
    exact chronicled.acted (fun _ logged => logged) ⟨memory, { recorded with traced := traced }⟩
  | call run => exact chronicled.call faithful run
  | present verified unforgeable =>
    -- no enclave changes when a commitment is presented
    exact fun id => (chronicled id).imp fun _ recorded => recorded.grow fun _ _ logged => logged

theorem initial_chronicled (initial : session.Initial setup) : Chronicled setup session := by
  obtain ⟨enclaves, _⟩ := initial
  intro id
  rw [enclaves id]
  refine ⟨fun _ => 0, new_traced _ _ _ _, rfl, ?_, ?_, rfl, ?_, ?_, ?_, ?_⟩
  all_goals simp [new, EnclaveAutomata.new]

theorem run_chronicled (run : Run setup (Faithful setup) session) : Chronicled setup session := by
  induction run with
  | start initial => exact initial_chronicled initial
  | step _ faithful step ih => exact step_chronicled ih faithful step

section

variable {memory : Nat → Nat → Nat}
  (known : ∀ id, Recorded setup session id (session.enclaves id) (memory id))

include known

theorem Gathered.reports {value : Nat} (gathered : Gathered setup session view value votes)
    (member : vote ∈ votes) : vote.getPreparedBlockView = memory vote.getCreator view ∧
      view < (session.enclaves vote.getCreator).automata.view ∧ vote.getCreator < setup.n := by
  have usig := gathered.usig vote member
  rw [← gathered.inView vote member]
  obtain ⟨id, record, logged, rfl⟩ := gathered.returned vote member
  rw [(known id).traced.creator record logged]
  exact ⟨(known id).votes record logged usig, (known id).traced.below record logged,
    (known id).hosts record logged⟩

theorem memory_le (view : Nat) :
    ∀ id, view < (session.enclaves id).automata.view → memory id view ≤ view := by
  induction view with
  | zero => exact fun id _ => (known id).first.le
  | succ view ih =>
    intro id reached
    rcases (known id).follows view reached with same | ⟨votes, gathered⟩
    · have := ih id (by omega)
      omega
    rcases gathered.names with here | ⟨highest, member, same, _⟩
    · omega
    -- the highest vote of the quorum is itself the memory of its creator
    obtain ⟨reports, below, -⟩ := gathered.reports known member
    have := ih highest.getCreator below
    omega

/-- What all members of a quorum remember, no member loses: the accumulator that could make it
forget has looked at another member. -/
theorem memory_lasts (majority : setup.n < 2 * setup.quorum) {members : Finset Nat}
    (isMajority : Majority setup.n setup.quorum members) {floor : Nat}
    (remember : ∀ id ∈ members, floor ≤ memory id view) (bound : floor ≤ view) (later : Nat) :
    ∀ id ∈ members, view + later < (session.enclaves id).automata.view →
      floor ≤ memory id (view + later) := by
  induction later with
  | zero => exact fun id member _ => remember id member
  | succ later ih =>
    intro id member reached
    rw [← Nat.add_assoc]
    rcases (known id).follows (view + later) reached with same | ⟨votes, gathered⟩
    · have := ih id member (by omega)
      omega
    have voters := Majority.of_votes (fun vote isVote => (gathered.reports known isVote).2.2)
      gathered.distinct gathered.enough
    obtain ⟨other, inMembers, inVotes⟩ := isMajority.meets voters majority
    obtain ⟨vote, isVote, rfl⟩ := List.mem_map.mp (List.mem_toFinset.mp inVotes)
    obtain ⟨reports, below, -⟩ := gathered.reports known isVote
    have remembered := ih vote.getCreator inMembers below
    rcases gathered.above isVote with here | above
    · omega
    · omega

end

/-- An enclave that forgets follows an accumulator that did not look at its vote. -/
theorem Chronicled.forgets (chronicled : Chronicled setup session)
    (faithful : Faithful setup session (.call id request))
    (run : (session.enclaves id).call request = .ok (enclave, result))
    (falls : enclave.automata.lastPreparedBlockView <
      (session.enclaves id).automata.lastPreparedBlockView) :
    ∃ votes, TakesOver setup session id (.call id request)
        enclave.automata.lastPreparedBlockView votes ∧
      ∀ vote ∈ votes, vote.getCreator ≠ id := by
  rcases chronicled.value faithful run with ⟨_, same⟩ | ⟨_, same | ⟨votes, takesOver⟩⟩
  · omega
  · omega
  refine ⟨votes, takesOver, ?_⟩
  rintro vote member rfl
  obtain ⟨view, follows, gathered⟩ := takesOver.gathers
  choose memory known using chronicled
  obtain ⟨reports, below, -⟩ := gathered.reports known member
  have current := (known vote.getCreator).current view follows.symm
  have bounded := memory_le known view vote.getCreator below
  rcases gathered.above member with here | above
  · omega
  · omega

/-- Votes of all members of a majority for one view, each reporting at least `floor`. -/
def Reported (session : Session P) (members : Finset Nat) (view floor : Nat) : Prop :=
  ∀ id ∈ members, ∃ record ∈ (session.enclaves id).log, record.result.isUsig = true ∧
    record.result.getView = view ∧ floor ≤ record.result.getPreparedBlockView

instance (session : Session P) (members : Finset Nat) (view floor : Nat) :
    Decidable (session.Reported members view floor) :=
  inferInstanceAs (Decidable (∀ id ∈ members, ∃ record ∈ (session.enclaves id).log,
    record.result.isUsig = true ∧ record.result.getView = view ∧
      floor ≤ record.result.getPreparedBlockView))

theorem Chronicled.reported (majority : setup.n < 2 * setup.quorum)
    (chronicled : Chronicled setup session) {members : Finset Nat}
    (isMajority : Majority setup.n setup.quorum members) {floor : Nat}
    (reported : session.Reported members view floor) (member : id ∈ members) {record : Record P}
    (logged : record ∈ (session.enclaves id).log) (usig : record.result.isUsig = true)
    (later : view ≤ record.result.getView) :
    floor ≤ record.result.getPreparedBlockView := by
  choose memory known using chronicled
  have remember : ∀ other ∈ members, floor ≤ memory other view := by
    intro other isMember
    obtain ⟨vote, isVote, isUsig, rfl, above⟩ := reported other isMember
    exact above.trans ((known other).votes vote isVote isUsig).le
  have reached := (known id).traced.below record logged
  have bound : floor ≤ view := (remember id member).trans (memory_le known view id (by omega))
  have lasts := memory_lasts known majority isMajority remember bound
    (record.result.getView - view) id member
  rw [Nat.add_sub_cancel' later] at lasts
  exact (lasts reached).trans ((known id).votes record logged usig).ge

end Session

/-- With hosts that pass on commitments as they were returned, what the votes of a quorum report is
never undercut by a later vote of one of its members. A single enclave is sent back to an older
block only by its own `prepare` call with an accumulator that was made without its vote of the
previous view. -/
theorem prepared_memory_lasts {setup : SessionSetup P} (majority : setup.n < 2 * setup.quorum)
    {session : Session P} (run : Session.Run setup (Session.Faithful setup) session) :
    (∀ members view floor, Majority setup.n setup.quorum members →
      session.Reported members view floor → ∀ id ∈ members,
        ∀ record ∈ (session.enclaves id).log, record.result.isUsig = true →
          view ≤ record.result.getView → floor ≤ record.result.getPreparedBlockView) ∧
    ∀ event next, Session.Faithful setup session event → Session.Step session event next →
      ∀ id, (next.enclaves id).automata.lastPreparedBlockView <
          (session.enclaves id).automata.lastPreparedBlockView →
        ∃ votes, Session.TakesOver setup session id event
            (next.enclaves id).automata.lastPreparedBlockView votes ∧
          ∀ vote ∈ votes, vote.getCreator ≠ id := by
  have chronicled := Session.run_chronicled run
  constructor
  · intro members view floor isMajority reported id member record logged usig later
    exact chronicled.reported majority isMajority reported member logged usig later
  intro event next faithful step id falls
  cases step with
  | @addPeer acting peer key enclave run =>
    obtain ⟨trusted, rfl⟩ := addPeer_ok run
    by_cases same : id = acting
    · subst same
      simp at falls
    · simp [update_of_ne same] at falls
  | @call acting request enclave result run =>
    by_cases same : id = acting
    · subst same
      simp only [update_self] at falls ⊢
      exact chronicled.forgets faithful run falls
    · simp [update_of_ne same] at falls
  | present verified unforgeable => exact absurd falls (lt_irrefl _)

namespace Symbolic

variable {session : Session platform}

theorem request_faithful {id : Nat} {asked : Asked} {call : EnclaveCall platform} (host : id < 3)
    (made : request session id asked = some call) :
    Session.Faithful sessionSetup session (.call id call) := by
  cases asked with
  | reSign =>
    obtain rfl := some.inj made
    exact host
  | accumulate votes =>
    obtain rfl := some.inj made
    refine ⟨host, fun signed member => ?_⟩
    obtain ⟨place, _, found⟩ := mem_filterMap.mp member
    exact logged_returned found
  | prepare block accumulator =>
    obtain ⟨signed, found, rfl⟩ := map_eq_some_iff.mp made
    exact ⟨host, logged_returned found⟩

theorem Deed.event_faithful (deed : Deed) (session : Session platform)
    (event : SessionEvent platform) (made : deed.event session = some event) :
    Session.Faithful sessionSetup session event := by
  cases deed with
  | addPeer id peer =>
    cases made
    trivial
  | call id asked =>
    simp only [Deed.event, bind_eq_bind, bind_eq_some_iff, guard_eq_some', exists_const] at made
    obtain ⟨host, call, asks, same⟩ := made
    cases same
    exact request_faithful host asks
  | present verifier place =>
    obtain ⟨signed, found, rfl⟩ := map_eq_some_iff.mp made
    trivial

/-- All enclaves prepare a child of the block of view 1, and only replica 0 prepares one of the
block of view 2. The others re-sign in view 3 and accumulate their two votes. -/
def outvoting : List Deed :=
  preparing ++ [.call 1 (.accumulate [(1, 1), (2, 1)]),
    .call 0 (.prepare (.orphan 1 2 none) (1, 2)),
    .call 1 (.prepare (.orphan 1 2 none) (1, 2)), .call 2 (.prepare (.orphan 1 2 none) (1, 2)),
    .call 2 (.accumulate [(1, 3), (2, 2)]), .call 0 (.prepare (.orphan 2 3 none) (2, 3)),
    .call 1 .reSign, .call 2 .reSign, .call 1 (.accumulate [(1, 4), (2, 4)])]

/-- Replica 0 prepares the block that is proposed without it. -/
def forgetting : Deed := .call 0 (.prepare (.orphan 1 4 none) (1, 5))

abbrev FaithfulRun (session : Session platform) : Prop :=
  Session.Run sessionSetup (Session.Faithful sessionSetup) session

/-- Replica 0 forgets the block of view 2. Replicas 1 and 2 still report the block of view 1. -/
theorem forgetting_step : ∃ session, FaithfulRun session ∧
    ∃ event, forgetting.event session = some event ∧ ∃ next, perform session event = some next ∧
    (next.enclaves 0).automata.lastPreparedBlockView <
      (session.enclaves 0).automata.lastPreparedBlockView ∧
    (∃ earlier ∈ (next.enclaves 0).log, ∃ later ∈ (next.enclaves 0).log,
      earlier.result.isUsig = true ∧ later.result.isUsig = true ∧
      earlier.result.getView < later.result.getView ∧
      later.result.getPreparedBlockView < earlier.result.getPreparedBlockView) ∧
    session.Reported {1, 2} 2 1 ∧ ∃ record ∈ (session.enclaves 1).log,
      record.result.isUsig = true ∧ record.result.getView = 3 :=
  play_run Deed.event_faithful outvoting (by decide +kernel)

end Symbolic

/-- Replicas 1 and 2 report the block of view 1 in view 2, so replica 1 still does in view 3, and
replica 0 is sent back to it by an accumulator without its vote. -/
theorem prepared_memory_lasts_outvoting : ∃ session event next, Symbolic.FaithfulRun session ∧
    Session.Step session event next ∧ session.Reported {1, 2} 2 1 ∧
    (∃ record ∈ (session.enclaves 1).log, record.result.getView = 3 ∧
      1 ≤ record.result.getPreparedBlockView) ∧
    (next.enclaves 0).automata.lastPreparedBlockView <
      (session.enclaves 0).automata.lastPreparedBlockView ∧
    ∃ votes, Session.TakesOver Symbolic.sessionSetup session 0 event
        (next.enclaves 0).automata.lastPreparedBlockView votes ∧
      ∀ vote ∈ votes, vote.getCreator ≠ 0 := by
  obtain ⟨session, run, event, made, next, done, falls, -, reported, record, logged, usig,
    inView⟩ := forgetting_step
  have step := perform_step done
  obtain ⟨lasts, forgets⟩ := prepared_memory_lasts (by decide) run
  refine ⟨session, event, next, run, step, reported, ⟨record, logged, inView, ?_⟩, falls,
    forgets event next (forgetting.event_faithful session event made) step 0 falls⟩
  exact lasts {1, 2} 2 1 ⟨by decide, by decide⟩ reported 1 (by decide) record logged usig (by omega)

/-- A single enclave does forget: replica 0 votes for view 3 with a block of view 2 as its last
prepared one, and then for view 4 with one of view 1. -/
theorem prepared_memory_falls : CollisionFree Symbolic.platform ∧
    Symbolic.sessionSetup.n < 2 * Symbolic.sessionSetup.quorum ∧
    ∃ session event next, Symbolic.FaithfulRun session ∧
      Session.Faithful Symbolic.sessionSetup session event ∧ Session.Step session event next ∧
      (next.enclaves 0).automata.lastPreparedBlockView <
        (session.enclaves 0).automata.lastPreparedBlockView ∧
      ∃ earlier ∈ (next.enclaves 0).log, ∃ later ∈ (next.enclaves 0).log,
        earlier.result.isUsig = true ∧ later.result.isUsig = true ∧
        earlier.result.getView < later.result.getView ∧
        later.result.getPreparedBlockView < earlier.result.getPreparedBlockView := by
  obtain ⟨session, run, event, made, next, done, falls, undercut, -⟩ := forgetting_step
  exact ⟨collisionFree, by decide, session, event, next, run,
    forgetting.event_faithful session event made, perform_step done, falls, undercut⟩

end Abcperf.Damysus
