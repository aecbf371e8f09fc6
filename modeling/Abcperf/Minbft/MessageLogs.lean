import Abcperf.Minbft.Execution

/-! The logs of `ViewChange`s: what `ViewChange::validate` finds out about one of them, and what a
`NewView` computes from all of them. -/

namespace Abcperf.Minbft

open Lib Lib.Outcome Validation Plain UsigSigned List Option

variable {P : Platform}

theorem increasing_span {first : Nat} {rest : List Nat}
    (increasing : (first :: rest).Pairwise (· < ·)) :
    first + rest.length ≤ (first :: rest).getLast (cons_ne_nil _ _) := by
  induction rest generalizing first with
  | nil => exact le_rfl
  | cons second rest ih =>
    obtain ⟨above, later⟩ := pairwise_cons.mp increasing
    have step := above second mem_cons_self
    have span := ih later
    rw [getLast_cons (cons_ne_nil _ _), length_cons]
    omega

/-- An increasing list that spans no more than its length leaves nothing out. -/
theorem increasing_consecutive {first : Nat} {rest : List Nat}
    (increasing : (first :: rest).Pairwise (· < ·))
    (tight : (first :: rest).getLast (cons_ne_nil _ _) ≤ first + rest.length) :
    first :: rest = List.range' first (rest.length + 1) := by
  induction rest generalizing first with
  | nil => rfl
  | cons second rest ih =>
    obtain ⟨above, later⟩ := pairwise_cons.mp increasing
    have step := above second mem_cons_self
    have span := increasing_span later
    rw [getLast_cons (cons_ne_nil _ _), length_cons] at tight
    obtain rfl : second = first + 1 := by omega
    rw [length_cons, range'_succ, ← ih later (by omega)]

namespace UsigSigned

def logCounters (viewChange : ViewChange P) : List Nat :=
  viewChange.data.variant.map (·.message.counter)

/-- Where the log of a `ViewChange` may start: with the first message of all, or not after the
checkpoint of the origin that its certificate is about. -/
def StartsAt (viewChange : ViewChange P) (first : Nat) : Prop :=
  match viewChange.data.checkpointCert with
  | none => first = 0
  | some certificate => certificate.myCheckpoint.data.origin = viewChange.data.origin ∧
      first ≤ certificate.myCheckpoint.counter

/-- The log consists of messages of the origin, one after the other up to the `ViewChange` itself.
-/
def GapFree (viewChange : ViewChange P) : Prop :=
  (∀ entry ∈ viewChange.data.variant, entry.message.origin = viewChange.data.origin) ∧
    ∃ first, viewChange.StartsAt first ∧
      viewChange.logCounters = List.range' first viewChange.logCounters.length ∧
      first + viewChange.logCounters.length = viewChange.counter

/-- What `validate` does not compare: the origins, the order of the log, and whether there may be a
message before the `ViewChange` at all. -/
structure InOrder (viewChange : ViewChange P) : Prop where
  own : ∀ entry ∈ viewChange.data.variant, entry.message.origin = viewChange.data.origin
  increasing : viewChange.logCounters.Pairwise (· < ·)
  certified : ∀ certificate, viewChange.data.checkpointCert = some certificate →
    certificate.myCheckpoint.data.origin = viewChange.data.origin
  later : viewChange.logCounters ≠ [] → viewChange.counter ≠ 0

theorem GapFree.inOrder {viewChange : ViewChange P} (gapFree : viewChange.GapFree) :
    viewChange.InOrder := by
  obtain ⟨own, first, starts, consecutive, ends⟩ := gapFree
  refine ⟨own, ?_, ?_, ?_⟩
  · rw [consecutive]
    exact pairwise_lt_range'
  · intro certificate isCert
    rw [StartsAt, isCert] at starts
    exact starts.1
  intro nonempty
  have := length_pos_of_ne_nil nonempty
  omega

variable {overflowChecks : Bool} {config : Config} {usig : Usig P} {viewChange : ViewChange P}

theorem validateFirst_ok {lowest : Nat} (isLowest : viewChange.seqNumMsgs.head? = some lowest)
    (ok : viewChange.validateFirst config usig = .ok (.ok ()))
    (certified : ∀ certificate, viewChange.data.checkpointCert = some certificate →
      certificate.myCheckpoint.data.origin = viewChange.data.origin) :
    viewChange.StartsAt lowest := by
  simp only [validateFirst, isLowest] at ok
  unfold StartsAt
  cases isCert : viewChange.data.checkpointCert with
  | none =>
    simp only [isCert] at ok
    by_contra nonzero
    rw [if_pos nonzero] at ok
    exact reject_ok _ ok
  | some certificate =>
    simp only [isCert, andThen_ok] at ok
    refine ⟨certified certificate isCert, ?_⟩
    by_contra above
    rw [if_pos (by omega)] at ok
    exact reject_ok _ ok.2

/-- The sum that is compared with the number of messages can only wrap around to zero. -/
theorem validateHoles_ok {lowest highest : Nat}
    (isLowest : viewChange.seqNumMsgs.head? = some lowest)
    (isHighest : viewChange.seqNumMsgs.getLast? = some highest) (fits : highest < word)
    (ok : viewChange.validateHoles overflowChecks config = .ok (.ok ())) :
    viewChange.seqNumMsgs.length = highest - lowest + 1 := by
  have nonempty : 0 < viewChange.seqNumMsgs.length :=
    length_pos_of_mem (mem_of_getLast? isHighest)
  simp only [validateHoles, isLowest, isHighest, bind_ok] at ok
  obtain ⟨amount, added, ok⟩ := ok
  have counted : viewChange.seqNumMsgs.length = amount := by
    by_contra differ
    rw [if_pos differ] at ok
    exact reject_ok _ ok
  unfold addWord at added
  split at added
  · rw [counted, pure_ok.mp added]
  split at added
  · cases added
  have full : highest - lowest + 1 = word := by omega
  rw [full, Nat.mod_self, pure_ok] at added
  omega

theorem validateLast_ok {last : LogMessage P}
    (isLast : viewChange.data.variant.getLast? = some last) (nonzero : viewChange.counter ≠ 0)
    (ok : viewChange.validateLast overflowChecks config = .ok (.ok ())) :
    last.message.counter + 1 = viewChange.counter := by
  simp only [validateLast, isLast, bind_ok] at ok
  obtain ⟨expected, subtracted, ok⟩ := ok
  rw [subWord, if_pos (by omega), pure_ok] at subtracted
  have : last.message.counter = expected := by
    by_contra differ
    rw [if_pos differ] at ok
    exact reject_ok _ ok
  omega

/-- In a log that is in order, the end points and the number of its messages say it all. -/
theorem InOrder.gapFree (inOrder : viewChange.InOrder)
    (words : ∀ counter ∈ viewChange.logCounters, counter < word)
    (accepted : viewChange.validateViewChange overflowChecks config usig = .ok (.ok ())) :
    viewChange.GapFree := by
  simp only [validateViewChange, andThen_ok] at accepted
  obtain ⟨-, first, holes, last⟩ := accepted
  have sorted : viewChange.seqNumMsgs = viewChange.logCounters :=
    (inOrder.increasing.imp le_of_lt).insertionSort_eq
  refine ⟨inOrder.own, ?_⟩
  cases counters : viewChange.logCounters with
  | nil =>
    have empty : viewChange.data.variant = [] := map_eq_nil_iff.mp counters
    have atStart : viewChange.counter = 0 := by
      by_contra later
      simp [validateLast, empty, later] at last
    refine ⟨0, ?_, rfl, by simpa using atStart.symm⟩
    unfold StartsAt
    split
    · rfl
    · next certificate isCert => exact ⟨inOrder.certified certificate isCert, Nat.zero_le _⟩
  | cons lowest rest =>
    have isTop := List.getLast?_eq_some_getLast (cons_ne_nil lowest rest)
    obtain ⟨top, isLast, topCounter⟩ : ∃ top, viewChange.data.variant.getLast? = some top ∧
        top.message.counter = (lowest :: rest).getLast (cons_ne_nil _ _) := by
      have found := congrArg List.getLast? counters
      rw [logCounters, List.getLast?_map, isTop] at found
      exact map_eq_some_iff.mp found
    have increasing := inOrder.increasing
    rw [counters] at increasing words sorted
    have span := increasing_span increasing
    have amount := validateHoles_ok (by rw [sorted]; rfl) (by rw [sorted, isTop])
      (words _ (getLast_mem _)) holes
    rw [sorted, length_cons] at amount
    have ends := validateLast_ok isLast
        (inOrder.later (by rw [counters]; exact cons_ne_nil _ _)) last
    refine ⟨lowest, validateFirst_ok (by rw [sorted]; rfl) first inOrder.certified,
      increasing_consecutive increasing (by omega), ?_⟩
    rw [length_cons]
    omega

/-- A `ViewChange` that is accepted has a log without gaps exactly if it is in order. -/
theorem accepted_gapFree_iff (words : ∀ counter ∈ viewChange.logCounters, counter < word)
    (accepted : viewChange.validateViewChange overflowChecks config usig = .ok (.ok ())) :
    viewChange.GapFree ↔ viewChange.InOrder :=
  ⟨GapFree.inOrder, fun inOrder => inOrder.gapFree words accepted⟩

end UsigSigned

namespace Plain

def trio : Config where
  n := 3
  t := 1
  id := 0
  batcherConfiguration := .ema
  initialTimeoutDuration := 1
  checkpointPeriod := 1
  backoffMultiplier := 1
  nonempty := by decide
  periodic := by decide

def attested : Usig platform :=
  ⟨(0 : Nat), 0, ((IdMap.empty.insert 0 (0 : Nat)).insert 1 (1 : Nat)).insert 2 (2 : Nat)⟩

def proposed (origin view counter : Nat) : Prepare platform :=
  ⟨⟨origin, view, []⟩, (⟨origin, counter, []⟩ : Signature)⟩

def logged (origin view counter : Nat) : LogMessage platform :=
  .of (.view (.prepare (proposed origin view counter)))

def changing (origin nextView counter : Nat) (log : List (LogMessage platform)) :
    ViewChange platform :=
  ⟨⟨origin, nextView, none, log⟩, (⟨origin, counter,
    hashbar.hashContent (.viewChange ⟨origin, nextView, none, log⟩)⟩ : Signature)⟩

/-- The counters of the log are 0, 0 and 2, and its second message is one of replica 0. -/
def holey : ViewChange platform := changing 1 2 3 [logged 1 1 0, logged 0 0 0, logged 1 1 2]

end Plain

theorem UsigSigned.accepted_gapFree_two :
    (Plain.changing 1 2 2 [Plain.logged 1 1 0, Plain.logged 1 1 1]).GapFree ↔
      (Plain.changing 1 2 2 [Plain.logged 1 1 0, Plain.logged 1 1 1]).InOrder :=
  accepted_gapFree_iff (by decide) (show (changing 1 2 2 _).validateViewChange true
    trio attested = .ok (.ok ()) from rfl)

/-- Repeated, missing and foreign counters are accepted. -/
theorem UsigSigned.holey_log_accepted :
    Plain.holey.validateViewChange true Plain.trio Plain.attested = .ok (.ok ()) ∧
      Plain.holey.logCounters = [0, 0, 2] ∧ ¬ Plain.holey.GapFree := by
  refine ⟨rfl, rfl, ?_⟩
  rintro ⟨own, -⟩
  exact absurd (own (logged 0 0 0) (by simp [holey, changing])) (by decide)

def logPreps (certificate : List (ViewChange P)) : List (Prepare P) :=
  (logEntries certificate).filterMap logPrepare

def UsigSigned.upTo (prepare other : Prepare P) : Prop :=
  prepare.data.view < other.data.view ∨
    (prepare.data.view = other.data.view ∧ prepare.counter ≤ other.counter)

instance : DecidableRel (upTo (P := P)) := fun prepare other =>
  inferInstanceAs (Decidable (prepare.data.view < other.data.view ∨
    (prepare.data.view = other.data.view ∧ prepare.counter ≤ other.counter)))

/-- Not accepted yet by a replica that has accepted everything up to `last`. -/
def UsigSigned.IsPending (last : Option (Prepare P)) (prepare : Prepare P) : Prop :=
  ∀ accepted, last = some accepted → ¬ prepare.upTo accepted

/-- What `compute_new_view_state` is for: every `Prepare` of the logs that is pending, once, in the
order of views and counters. -/
structure NewViewState (last : Option (Prepare P)) (certificate : List (ViewChange P))
    (preps : List (Prepare P)) : Prop where
  complete : ∀ prepare, prepare ∈ preps ↔ prepare ∈ logPreps certificate ∧ prepare.IsPending last
  once : preps.Nodup
  ordered : preps.Pairwise UsigSigned.upTo

/-- The counters of the `Prepare`s alone tell them apart and put them in order. -/
structure ToldByCounter (last : Option (Prepare P)) (certificate : List (ViewChange P)) : Prop where
  pending : ∀ prepare ∈ logPreps certificate,
    prepare.IsPending last ↔ ∀ accepted, last = some accepted → accepted.counter < prepare.counter
  distinct : ∀ prepare ∈ logPreps certificate, ∀ other ∈ logPreps certificate,
    prepare.IsPending last → other.IsPending last → prepare.counter = other.counter →
      prepare = other
  ordered : ∀ prepare ∈ logPreps certificate, ∀ other ∈ logPreps certificate,
    prepare.IsPending last → other.IsPending last → prepare.counter < other.counter →
      prepare.data.view ≤ other.data.view

section State

variable {env : Env} {last : Option (Prepare P)} {certificate : List (ViewChange P)}
  {prepare : Prepare P}

def laterPreps (last : Option (Prepare P)) (certificate : List (ViewChange P)) : List (Prepare P) :=
  (logPreps certificate).filter fun prepare =>
    !isAtMost prepare.counter (last.map UsigSigned.counter)

theorem mem_laterPreps : prepare ∈ laterPreps last certificate ↔ prepare ∈ logPreps certificate ∧
    ∀ accepted, last = some accepted → accepted.counter < prepare.counter := by
  cases last <;> simp [laterPreps, isAtMost]

def picked (env : Env) (preps : List (Prepare P)) (counter : Nat) : Option (Prepare P) :=
  let same := preps.filter (·.counter = counter)
  same[env.pick counter % same.length]?

theorem picked_mem {preps : List (Prepare P)} {counter : Nat}
    (isPicked : picked env preps counter = some prepare) :
    prepare ∈ preps ∧ prepare.counter = counter := by
  have := mem_filter.mp (mem_of_getElem? isPicked)
  exact ⟨this.1, of_decide_eq_true this.2⟩

theorem picked_some (env : Env) {preps : List (Prepare P)} (member : prepare ∈ preps) :
    ∃ other, picked env preps prepare.counter = some other := by
  have same : prepare ∈ preps.filter (·.counter = prepare.counter) := by simp [member]
  exact ⟨_, List.getElem?_eq_getElem (Nat.mod_lt _ (length_pos_of_mem same))⟩

theorem uniquePreps_eq : uniquePreps env (last.map counter) certificate =
    (((laterPreps last certificate).map counter).dedup.insertionSort (· ≤ ·)).filterMap
      (picked env (laterPreps last certificate)) := rfl

theorem mem_uniquePreps : prepare ∈ uniquePreps env (last.map counter) certificate ↔
      picked env (laterPreps last certificate) prepare.counter = some prepare := by
  simp only [uniquePreps_eq, mem_filterMap, mem_insertionSort, mem_dedup, List.mem_map]
  constructor
  · rintro ⟨_, -, isPicked⟩
    obtain ⟨-, rfl⟩ := picked_mem isPicked
    exact isPicked
  · intro isPicked
    exact ⟨_, ⟨prepare, (picked_mem isPicked).1, rfl⟩, isPicked⟩

/-- What is returned has one `Prepare` for each counter, in the order of the counters. -/
theorem uniquePreps_increasing (env : Env) (last : Option (Prepare P))
    (certificate : List (ViewChange P)) : (uniquePreps env (last.map counter) certificate).Pairwise
      fun prepare other => prepare.counter < other.counter := by
  rw [uniquePreps_eq, pairwise_filterMap]
  have sorted := pairwise_insertionSort (· ≤ ·) ((laterPreps last certificate).map counter).dedup
  have distinct := (perm_insertionSort (· ≤ ·) _).nodup_iff.mpr
    (nodup_dedup ((laterPreps last certificate).map counter))
  refine (sorted.and distinct).imp ?_
  rintro counter other ⟨atMost, differ⟩ prepare isPicked next isNext
  rw [(picked_mem isPicked).2, (picked_mem isNext).2]
  exact lt_of_le_of_ne atMost differ

theorem uniquePreps_unique {other : Prepare P}
    (member : prepare ∈ uniquePreps env (last.map counter) certificate)
    (isOther : other ∈ uniquePreps env (last.map counter) certificate)
    (same : prepare.counter = other.counter) : prepare = other := by
  have left := mem_uniquePreps.mp member
  have right := mem_uniquePreps.mp isOther
  rw [same, right] at left
  exact (some.inj left).symm

theorem exists_uniquePreps (later : prepare ∈ laterPreps last certificate) :
    ∃ env, prepare ∈ uniquePreps env (last.map counter) certificate := by
  have same : prepare ∈ (laterPreps last certificate).filter (·.counter = prepare.counter) := by
    simp [later]
  obtain ⟨index, below, found⟩ := getElem_of_mem same
  refine ⟨{ env with pick := fun _ => index }, mem_uniquePreps.mpr ?_⟩
  simp only [picked, Nat.mod_eq_of_lt below]
  rw [List.getElem?_eq_getElem below, found]

theorem ToldByCounter.state (told : ToldByCounter last certificate) (env : Env) :
    NewViewState last certificate (uniquePreps env (last.map counter) certificate) := by
  have members : ∀ prepare, prepare ∈ uniquePreps env (last.map counter) certificate ↔
      prepare ∈ logPreps certificate ∧ prepare.IsPending last := by
    intro prepare
    constructor
    · intro member
      obtain ⟨inLogs, above⟩ := mem_laterPreps.mp (picked_mem (mem_uniquePreps.mp member)).1
      exact ⟨inLogs, (told.pending prepare inLogs).mpr above⟩
    rintro ⟨inLogs, pending⟩
    have later := mem_laterPreps.mpr ⟨inLogs, (told.pending prepare inLogs).mp pending⟩
    obtain ⟨other, isPicked⟩ := picked_some env later
    obtain ⟨isLater, same⟩ := picked_mem isPicked
    obtain ⟨otherLogs, otherAbove⟩ := mem_laterPreps.mp isLater
    obtain rfl := told.distinct prepare inLogs other otherLogs pending
      ((told.pending other otherLogs).mpr otherAbove) same.symm
    exact mem_uniquePreps.mpr isPicked
  have increasing := uniquePreps_increasing env last certificate
  refine ⟨members, increasing.imp fun less same => ?_, ?_⟩
  · exact absurd (same ▸ less) (lt_irrefl _)
  refine increasing.imp_of_mem fun member isOther less => ?_
  obtain ⟨inLogs, pending⟩ := (members _).mp member
  obtain ⟨otherLogs, otherPending⟩ := (members _).mp isOther
  have views := told.ordered _ inLogs _ otherLogs pending otherPending less
  unfold upTo
  omega

end State

/-- The computed state is the right one, whichever of the `Prepare`s with one counter is taken,
exactly if counters tell the `Prepare`s apart and put them in order. -/
theorem newViewState_iff (last : Option (Prepare P)) (certificate : List (ViewChange P)) :
    (∀ env, NewViewState last certificate
      (uniquePreps env (last.map UsigSigned.counter) certificate)) ↔
      ToldByCounter last certificate := by
  refine ⟨fun states => ?_, ToldByCounter.state⟩
  have later : ∀ {prepare}, prepare ∈ logPreps certificate → prepare.IsPending last →
      ∀ env, prepare ∈ uniquePreps env (last.map counter) certificate :=
    fun inLogs pending env => ((states env).complete _).mpr ⟨inLogs, pending⟩
  refine ⟨fun prepare inLogs => ⟨fun pending => ?_, fun above => ?_⟩, ?_, ?_⟩
  · have isPicked := mem_uniquePreps.mp (later inLogs pending env)
    exact (mem_laterPreps.mp (picked_mem isPicked).1).2
  · obtain ⟨env, member⟩ := exists_uniquePreps (mem_laterPreps.mpr ⟨inLogs, above⟩)
    exact (((states env).complete prepare).mp member).2
  · intro prepare inLogs other otherLogs pending otherPending same
    exact uniquePreps_unique (later inLogs pending env) (later otherLogs otherPending _) same
  intro prepare inLogs other otherLogs pending otherPending less
  have ordered := pairwise_iff_getElem.mp (states env).ordered
  have increasing := pairwise_iff_getElem.mp (uniquePreps_increasing env last certificate)
  obtain ⟨index, below, rfl⟩ := getElem_of_mem (later inLogs pending env)
  obtain ⟨next, nextBelow, rfl⟩ := getElem_of_mem (later otherLogs otherPending env)
  rcases Nat.lt_trichotomy index next with before | rfl | after
  · rcases ordered index next below nextBelow before with lower | ⟨same, -⟩
    · exact lower.le
    · exact same.le
  · exact le_rfl
  · exact absurd less (increasing next index nextBelow below after).asymm

namespace Plain

/-- Replica 0 has proposed twice in view 0; replica 1 has committed to the first of these and
proposed in view 1 with the counter of the second. -/
def interleaved : List (ViewChange platform) :=
  [changing 0 2 2 [logged 0 0 0, logged 0 0 1],
    changing 1 2 2 [.of (.view (.commit ⟨⟨1, proposed 0 0 0⟩, (⟨1, 0, []⟩ : Signature)⟩)),
      logged 1 1 1]]

def announced : NewView platform :=
  ⟨⟨2, 2, interleaved⟩, (⟨2, 0, hashbar.hashContent (.newView ⟨2, 2, interleaved⟩)⟩ : Signature)⟩

end Plain

/-- Of two `Prepare`s of different primaries with the same counter, one is lost. -/
theorem interleaved_prepare_lost :
    Plain.announced.validateCertificate true Plain.trio Plain.attested = .ok (.ok ()) ∧
      ∀ env, ¬ NewViewState (some (Plain.proposed 0 0 0)) Plain.announced.data.certificate
        (uniquePreps env ((some (Plain.proposed 0 0 0)).map UsigSigned.counter)
          Plain.announced.data.certificate) := by
  refine ⟨rfl, fun env state => ?_⟩
  have first := (state.complete (proposed 0 0 1)).mpr
    ⟨mem_cons_of_mem _ mem_cons_self, by rintro _ ⟨⟩; decide⟩
  have second := (state.complete (proposed 1 1 1)).mpr ⟨mem_of_getLast? rfl, by rintro _ ⟨⟩; decide⟩
  exact absurd (congrArg (·.data.origin) (uniquePreps_unique first second rfl)) (by decide)

end Abcperf.Minbft
