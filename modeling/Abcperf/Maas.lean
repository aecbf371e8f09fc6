import Mathlib.Data.List.Nodup
import Abcperf.Lib.Outcome

/-! The database of the mobility service. A user is known by a long-term secret, and each successful
operation leaves the short-term secret that the next one has to present. A check-in and a check-out
create the user they are of before they check anything. -/

namespace Abcperf.Maas

open Lib Lib.Outcome Function List Option

inductive InnerModifyMsg
  | register (pseu shortTermSecret longTermSecret : Nat)
  | checkin (longTermSecret shortTermSecret nextShortTermSecret : Nat)
  | checkout (longTermSecret shortTermSecret nextShortTermSecret : Nat)
  | reset (longTermSecret newShortTermSecret : Nat)
  | reregister
  | clearance

/-- Of trips only the ids are kept, since places and times are empty. -/
structure UserData where
  pseu : Nat
  nextShortTermSecret : Nat
  currentTrip : Option Nat
  trips : List Nat

structure Db where
  nextTripId : Nat
  users : Nat → Option UserData
  usedPseus : List Nat

namespace Db

def empty : Db := ⟨0, fun _ => none, []⟩

def setUser (db : Db) (longTermSecret : Nat) (user : UserData) : Db :=
  { db with users := update db.users longTermSecret (some user) }

/-- The user of a check-in or check-out, created with the secret that is presented if need be. -/
def entry (db : Db) (longTermSecret shortTermSecret : Nat) : UserData :=
  (db.users longTermSecret).getD ⟨0, shortTermSecret, none, []⟩

/-- The flag says if the result is `Ok`. The trip counter has 64 bits, and the build decides if it
wraps around. -/
def modify (overflowChecks : Bool) (db : Db) : InnerModifyMsg → Outcome (Db × Bool)
  | .register pseu shortTermSecret longTermSecret =>
    if pseu ∈ db.usedPseus then return (db, false)
    else if (db.users longTermSecret).isSome then return (db, false)
    else return ({ db with usedPseus := pseu :: db.usedPseus }.setUser longTermSecret
      ⟨pseu, shortTermSecret, none, []⟩, true)
  | .checkin longTermSecret shortTermSecret nextShortTermSecret =>
    let user := db.entry longTermSecret shortTermSecret
    let db := db.setUser longTermSecret user
    if user.nextShortTermSecret ≠ shortTermSecret then return (db, false)
    else if user.currentTrip.isSome then return (db, false)
    else do
      let nextTripId ← addWord overflowChecks db.nextTripId 1
      return ({ db with nextTripId }.setUser longTermSecret { user with
        nextShortTermSecret, currentTrip := some db.nextTripId }, true)
  | .checkout longTermSecret shortTermSecret nextShortTermSecret =>
    let user := db.entry longTermSecret shortTermSecret
    let db := db.setUser longTermSecret user
    if user.nextShortTermSecret ≠ shortTermSecret then return (db, false)
    else match user.currentTrip with
      | some tripId => return (db.setUser longTermSecret { user with
          nextShortTermSecret, currentTrip := none, trips := user.trips ++ [tripId] }, true)
      | none => return (db, false)
  | .reset longTermSecret newShortTermSecret =>
    match db.users longTermSecret with
    | some user =>
      return (db.setUser longTermSecret { user with nextShortTermSecret := newShortTermSecret },
        true)
    | none => throw .unreachable
  | .reregister => return (db, false)
  | .clearance => throw .unreachable

end Db

variable {overflowChecks : Bool}

def InnerModifyMsg.IsUnknownCheckout (db : Db) : InnerModifyMsg → Prop
  | .checkout longTermSecret _ _ => db.users longTermSecret = none
  | _ => False

theorem Db.setUser_entry {db : Db} {longTermSecret shortTermSecret : Nat} :
    db.setUser longTermSecret (db.entry longTermSecret shortTermSecret) = db ↔
      db.users longTermSecret ≠ none := by
  obtain ⟨nextTripId, users, usedPseus⟩ := db
  simp only [setUser, entry, Db.mk.injEq, true_and, and_true]
  constructor
  · intro same unknown
    have := congrFun same longTermSecret
    rw [update_self, unknown] at this
    cases this
  intro known
  obtain ⟨user, isUser⟩ := ne_none_iff_exists'.mp known
  rw [isUser, getD_some, ← isUser, update_eq_self]

theorem checkout_rejected {db next : Db} {secret short following : Nat}
    (rejected : db.modify overflowChecks (.checkout secret short following) = .ok (next, false)) :
    next = db.setUser secret (db.entry secret short) := by
  simp only [Db.modify] at rejected
  split at rejected
  · exact (Prod.mk.inj (pure_ok.mp rejected)).1.symm
  split at rejected
  · cases pure_ok.mp rejected
  · exact (Prod.mk.inj (pure_ok.mp rejected)).1.symm

/-- A check-in fails only for a user that is known: a new one is created with the secret that is
presented, and without a trip. -/
theorem checkin_ok {db next : Db} {secret short following : Nat} {accepted : Bool}
    (run : db.modify overflowChecks (.checkin secret short following) = .ok (next, accepted)) :
    accepted = false ∧ db.users secret ≠ none ∧ next = db.setUser secret (db.entry secret short) ∨
      accepted = true ∧ (db.entry secret short).nextShortTermSecret = short ∧
        (db.entry secret short).currentTrip = none ∧ ∃ nextTripId,
        addWord overflowChecks db.nextTripId 1 = .ok nextTripId ∧
        next = Db.setUser { db with nextTripId } secret { db.entry secret short with
          nextShortTermSecret := following, currentTrip := some db.nextTripId } := by
  simp only [Db.modify] at run
  split at run
  · next different =>
    cases pure_ok.mp run
    exact .inl ⟨rfl, fun unknown => different (by rw [Db.entry, unknown]; rfl), rfl⟩
  split at run
  · next travels =>
    cases pure_ok.mp run
    exact .inl ⟨rfl, fun unknown => by simp [Db.entry, unknown] at travels, rfl⟩
  rename_i same idle
  obtain ⟨nextTripId, counts, run⟩ := bind_ok.mp run
  cases pure_ok.mp run
  exact .inr ⟨rfl, not_not.mp same, by simpa using idle, nextTripId, counts, by simp [Db.setUser]⟩

theorem modify_rejected {db next : Db} {msg : InnerModifyMsg}
    (rejected : db.modify overflowChecks msg = .ok (next, false)) :
    ¬ msg.IsUnknownCheckout db ∧ next = db ∨ ∃ secret short following,
      msg = .checkout secret short following ∧ db.users secret = none ∧
        next = db.setUser secret (db.entry secret short) := by
  cases msg with
  | register pseu shortTermSecret longTermSecret =>
    simp only [Db.modify] at rejected
    split at rejected
    · cases pure_ok.mp rejected
      exact .inl ⟨id, rfl⟩
    split at rejected
    · cases pure_ok.mp rejected
      exact .inl ⟨id, rfl⟩
    · cases pure_ok.mp rejected
  | checkin longTermSecret shortTermSecret nextShortTermSecret =>
    rcases checkin_ok rejected with ⟨-, known, rfl⟩ | ⟨accepted, -⟩
    · exact .inl ⟨id, Db.setUser_entry.mpr known⟩
    · cases accepted
  | checkout longTermSecret shortTermSecret nextShortTermSecret =>
    rw [checkout_rejected rejected]
    by_cases unknown : db.users longTermSecret = none
    · exact .inr ⟨_, _, _, rfl, unknown, rfl⟩
    · exact .inl ⟨unknown, Db.setUser_entry.mpr unknown⟩
  | reset longTermSecret newShortTermSecret =>
    simp only [Db.modify] at rejected
    split at rejected
    · cases pure_ok.mp rejected
    · cases rejected
  | reregister =>
    cases pure_ok.mp rejected
    exact .inl ⟨id, rfl⟩
  | clearance => cases rejected

/-- A rejected operation leaves the database as it was, unless it is the check-out of a user that is
not known. -/
theorem rejected_unchanged_iff {db next : Db} {msg : InnerModifyMsg}
    (rejected : db.modify overflowChecks msg = .ok (next, false)) :
    next = db ↔ ¬ msg.IsUnknownCheckout db := by
  rcases modify_rejected rejected with ⟨known, same⟩ | ⟨secret, short, following, rfl, unknown, rfl⟩
  · exact ⟨fun _ => known, fun _ => same⟩
  · exact Db.setUser_entry

/-- A second check-in of a user is rejected and changes nothing. -/
theorem second_checkin_unchanged : ∃ db next,
    Db.empty.modify false (.checkin 1 2 3) = .ok (db, true) ∧
    db.modify false (.checkin 1 3 4) = .ok (next, false) ∧ next = db :=
  ⟨_, _, rfl, rfl, (@rejected_unchanged_iff false _ _ (.checkin 1 3 4) rfl).mpr id⟩

/-- A rejected check-out creates a user, and then the registration of that user is rejected. -/
theorem rejected_checkout_creates_user :
    ∃ db next, Db.empty.modify false (.checkout 1 2 3) = .ok (db, false) ∧
    db ≠ Db.empty ∧ db.modify false (.register 5 6 1) = .ok (next, false) := by
  refine ⟨_, _, rfl, fun same => ?_, rfl⟩
  have := congrArg (fun db => (db.users 1).isSome) same
  cases this

namespace InnerModifyMsg

def longTermSecret : InnerModifyMsg → Nat
  | .register _ _ longTermSecret | .checkin longTermSecret _ _ | .checkout longTermSecret _ _
  | .reset longTermSecret _ => longTermSecret
  | .reregister | .clearance => 0

def presents : InnerModifyMsg → Option Nat
  | .checkin _ shortTermSecret _ | .checkout _ shortTermSecret _ => some shortTermSecret
  | _ => none

def leaves : InnerModifyMsg → Option Nat
  | .register _ secret _ | .checkin _ _ secret | .checkout _ _ secret | .reset _ secret =>
  some secret
  | .reregister | .clearance => none

def trips : InnerModifyMsg → Nat
  | .checkin _ _ _ => 1
  | _ => 0

end InnerModifyMsg

structure Operation where
  msg : InnerModifyMsg
  tripId : Nat

def Operation.receives (operation : Operation) : Option Nat :=
  match operation.msg with
  | .checkin _ _ _ => some operation.tripId
  | _ => none

def Operation.travels (operation : Operation) : Option Bool :=
  operation.msg.presents.map fun _ => operation.receives.isSome

/-- Of check-ins and check-outs, the latest first: they take turns, and the first is a check-in. -/
def Alternates : List Bool → Prop
  | [] => True
  | isCheckin :: earlier => isCheckin = !earlier.headD false ∧ Alternates earlier

def Presents : List Operation → Prop
  | [] => True
  | operation :: earlier => (∀ secret ∈ operation.msg.presents, ∀ before ∈ earlier.head?,
      before.msg.leaves = some secret) ∧ Presents earlier

def UserData.tripIds (user : UserData) : List Nat := user.currentTrip.toList ++ user.trips.reverse

/-- A sequence of messages with a number of trips. The journal has the successful operations of each
user, the latest first. -/
inductive Run (overflowChecks : Bool) : Nat → (Nat → List Operation) → Db → Prop
  | start : Run overflowChecks 0 (fun _ => []) .empty
  | rejects {trips : Nat} {journal : Nat → List Operation} {db next : Db} {msg : InnerModifyMsg}
      (before : Run overflowChecks trips journal db)
      (run : db.modify overflowChecks msg = .ok (next, false)) :
      Run overflowChecks trips journal next
  | succeeds {trips : Nat} {journal : Nat → List Operation} {db next : Db} {msg : InnerModifyMsg}
      (before : Run overflowChecks trips journal db)
      (run : db.modify overflowChecks msg = .ok (next, true)) :
      Run overflowChecks (trips + msg.trips) (update journal msg.longTermSecret
        (⟨msg, db.nextTripId⟩ :: journal msg.longTermSecret)) next

structure Records (journal : List Operation) (user : UserData) : Prop where
  alternates : Alternates (journal.filterMap Operation.travels)
  presents : Presents journal
  running : user.currentTrip.isSome = (journal.filterMap Operation.travels).headD false
  secret : ∀ latest ∈ journal.head?, latest.msg.leaves = some user.nextShortTermSecret
  received : user.tripIds = journal.filterMap Operation.receives

structure Inv (journal : Nat → List Operation) (db : Db) : Prop where
  unknown : ∀ secret, db.users secret = none → journal secret = []
  records : ∀ secret user, db.users secret = some user → Records (journal secret) user

/-- The ids of the trips are below the counter, and no two check-ins have received the same one. -/
structure Distinct (journal : Nat → List Operation) (nextTripId : Nat) : Prop where
  below : ∀ secret, ∀ id ∈ (journal secret).filterMap Operation.receives, id < nextTripId
  once : ∀ secret, ((journal secret).filterMap Operation.receives).Nodup
  owned : ∀ secret other, ∀ id ∈ (journal secret).filterMap Operation.receives,
    id ∈ (journal other).filterMap Operation.receives → secret = other

variable {journal : Nat → List Operation} {db next : Db} {msg : InnerModifyMsg} {secret : Nat}
  {user : UserData} {operations : List Operation}

theorem Inv.entry (inv : Inv journal db) (secret short : Nat) :
    Records (journal secret) (db.entry secret short) := by
  unfold Db.entry
  cases known : db.users secret with
  | some user => exact inv.records secret user known
  | none =>
    rw [inv.unknown secret known]
    exact ⟨trivial, trivial, rfl, by simp, rfl⟩

theorem Inv.rejects (inv : Inv journal db)
    (run : db.modify overflowChecks msg = .ok (next, false)) :
    Inv journal next ∧ next.nextTripId = db.nextTripId := by
  rcases modify_rejected run with ⟨-, rfl⟩ | ⟨secret, short, _, -, -, rfl⟩
  · exact ⟨inv, rfl⟩
  have created := inv.entry secret short
  obtain ⟨unknown, records⟩ := inv
  refine ⟨⟨?_, ?_⟩, rfl⟩ <;> simp only [Db.setUser, update_apply] <;> grind

/-- A successful operation changes the data of one user. -/
theorem Inv.set {operation : Operation} (inv : Inv journal db) (nextTripId : Nat)
    (pseus : List Nat) (records : Records (operation :: journal secret) user) :
    Inv (update journal secret (operation :: journal secret))
      (Db.setUser ⟨nextTripId, db.users, pseus⟩ secret user) := by
  obtain ⟨unknown, known⟩ := inv
  refine ⟨?_, ?_⟩ <;> simp only [Db.setUser, update_apply] <;> grind

/-- A check-in receives the next id. -/
theorem Distinct.succeeds {nextTripId : Nat} (distinct : Distinct journal nextTripId)
    (secret : Nat) (msg : InnerModifyMsg) :
    Distinct (update journal secret (⟨msg, nextTripId⟩ :: journal secret))
      (nextTripId + msg.trips) := by
  obtain ⟨below, once, owned⟩ := distinct
  have receives : Operation.receives ⟨msg, nextTripId⟩ = none ∧ msg.trips = 0 ∨
      Operation.receives ⟨msg, nextTripId⟩ = some nextTripId ∧ msg.trips = 1 := by
    cases msg <;> simp [Operation.receives, InnerModifyMsg.trips]
  refine ⟨?_, ?_, ?_⟩ <;> simp only [update_apply] <;>
    rcases receives with ⟨none, same⟩ | ⟨received, one⟩ <;> grind

/-- An operation that takes its turn, presents the secret that was left and leaves another one. -/
theorem Records.cons {operation : Operation} {after : UserData} (records : Records operations user)
    (presents : ∀ secret ∈ operation.msg.presents, secret = user.nextShortTermSecret)
    (turn : ∀ isCheckin ∈ operation.travels, isCheckin = !user.currentTrip.isSome)
    (running : after.currentTrip.isSome = operation.travels.getD user.currentTrip.isSome)
    (leaves : operation.msg.leaves = some after.nextShortTermSecret)
    (trips : after.tripIds = operation.receives.toList ++ user.tripIds) :
    Records (operation :: operations) after := by
  refine ⟨?_, ⟨?_, records.presents⟩, ?_, ?_, ?_⟩
  · rw [filterMap_cons]
    split
    · exact records.alternates
    · next isCheckin travels => exact ⟨records.running ▸ turn isCheckin travels, records.alternates⟩
  · intro secret presented before isBefore
    rw [presents secret presented]
    exact records.secret before isBefore
  · rw [running, records.running, filterMap_cons]
    cases operation.travels <;> rfl
  · rintro _ ⟨⟩
    exact leaves
  · rw [trips, records.received, filterMap_cons]
    cases operation.receives <;> rfl

theorem Inv.succeeds (inv : Inv journal db)
    (run : db.modify overflowChecks msg = .ok (next, true)) :
    Inv (update journal msg.longTermSecret (⟨msg, db.nextTripId⟩ :: journal msg.longTermSecret))
      next ∧ (msg.trips = 0 ∧ next.nextTripId = db.nextTripId ∨
        msg.trips = 1 ∧ addWord overflowChecks db.nextTripId 1 = .ok next.nextTripId) := by
  cases msg with
  | register pseu short secret =>
    simp only [Db.modify] at run
    split at run
    · cases run
    split at run
    · cases run
    rename_i unknown
    cases run
    have records := inv.entry secret short
    rw [Db.entry, show db.users secret = none by simpa using unknown] at records
    exact ⟨inv.set _ _ (records.cons (by simp [InnerModifyMsg.presents])
      (by simp [Operation.travels, InnerModifyMsg.presents]) rfl rfl rfl), .inl ⟨rfl, rfl⟩⟩
  | checkin secret short following =>
    rcases checkin_ok run with ⟨rejected, -⟩ | ⟨-, same, idle, nextTripId, counts, rfl⟩
    · cases rejected
    refine ⟨inv.set _ db.usedPseus ((inv.entry secret short).cons ?_ ?_ rfl rfl ?_),
      .inr ⟨rfl, counts⟩⟩
    · rintro _ ⟨⟩
      exact same.symm
    · rintro _ ⟨⟩
      rw [idle]
      rfl
    · rw [UserData.tripIds, UserData.tripIds, idle]
      rfl
  | checkout secret short following =>
    have records := inv.entry secret short
    simp only [Db.modify] at run
    split at run
    · cases run
    rename_i same
    split at run
    · next tripId travels =>
      cases run
      simp only [Db.setUser, update_idem]
      refine ⟨inv.set _ db.usedPseus (records.cons ?_ ?_ rfl rfl ?_), .inl ⟨rfl, trivial⟩⟩
      · rintro _ ⟨⟩
        exact (not_not.mp same).symm
      · rintro _ ⟨⟩
        rw [travels]
        rfl
      · rw [UserData.tripIds, UserData.tripIds, travels, reverse_append]
        rfl
    · cases run
  | reset secret following =>
    simp only [Db.modify] at run
    split at run
    · next user known =>
      cases run
      exact ⟨inv.set _ _ ((inv.records secret user known).cons (by simp [InnerModifyMsg.presents])
        (by simp [Operation.travels, InnerModifyMsg.presents]) rfl rfl rfl), .inl ⟨rfl, rfl⟩⟩
    · cases run
  | reregister => cases run
  | clearance => cases run

theorem Run.inv {trips : Nat} (run : Run overflowChecks trips journal db) : Inv journal db := by
  induction run with
  | start => exact ⟨fun _ _ => rfl, by simp [Db.empty]⟩
  | rejects _ run ih => exact (ih.rejects run).1
  | succeeds _ run ih => exact (ih.succeeds run).1

/-- As long as the counter has not wrapped around, it counts the trips. -/
theorem Run.distinct {trips : Nat} (run : Run overflowChecks trips journal db)
    (few : overflowChecks = false → trips < word) :
    db.nextTripId = trips ∧ Distinct journal trips := by
  induction run with
  | start => exact ⟨rfl, by simp, by simp, by simp⟩
  | rejects before run ih => exact ⟨(before.inv.rejects run).2.trans (ih few).1, (ih few).2⟩
  | @succeeds trips journal db next msg before run ih =>
    obtain ⟨rfl, distinct⟩ := ih fun unchecked =>
      Nat.lt_of_le_of_lt (Nat.le_add_right _ _) (few unchecked)
    refine ⟨?_, distinct.succeeds msg.longTermSecret msg⟩
    rcases (before.inv.succeeds run).2 with ⟨none, same⟩ | ⟨one, counts⟩
    · rw [none, same, Nat.add_zero]
    · rw [one] at few ⊢
      exact addWord_eq few counts

/-- The check-ins and check-outs of a user take turns and present the secrets that were left, and
the trips of the user have the ids that the check-ins received. No two trips share an id, unless a
build without overflow checks has used all of them. -/
theorem sessions_orderly {trips : Nat} {journal : Nat → List Operation} {db : Db}
    (run : Run overflowChecks trips journal db) :
    (∀ secret, Alternates ((journal secret).filterMap Operation.travels) ∧
      Presents (journal secret)) ∧
    ∀ secret user, db.users secret = some user →
      user.tripIds = (journal secret).filterMap Operation.receives ∧
      ((overflowChecks = false → trips < word) → user.tripIds.Nodup ∧
        ∀ other user', db.users other = some user' →
          ∀ id ∈ user.tripIds, id ∈ user'.tripIds → secret = other) := by
  have inv := run.inv
  refine ⟨fun secret => ?_, fun secret user known => ?_⟩
  · cases known : db.users secret with
    | none =>
      rw [inv.unknown secret known]
      exact ⟨trivial, trivial⟩
    | some user => exact ⟨(inv.records secret user known).alternates,
        (inv.records secret user known).presents⟩
  have received := (inv.records secret user known).received
  refine ⟨received, fun few => ?_⟩
  obtain ⟨-, distinct⟩ := run.distinct few
  refine ⟨received ▸ distinct.once secret, fun other user' isOther id => ?_⟩
  rw [received, (inv.records other user' isOther).received]
  exact distinct.owned secret other id

/-- A trip of user 1, who is created by the check-in. -/
theorem one_session : ∃ journal db user, Run false 1 journal db ∧ db.users 1 = some user ∧
    user.tripIds = (journal 1).filterMap Operation.receives ∧ user.tripIds.Nodup := by
  have checkedIn := @Run.succeeds false _ _ _ _ (.checkin 1 2 3) .start rfl
  have run := @Run.succeeds false _ _ _ _ (.checkout 1 3 4) checkedIn rfl
  obtain ⟨received, distinct⟩ := (sessions_orderly run).2 1 _ rfl
  exact ⟨_, _, _, run, rfl, received, (distinct fun _ => by decide).1⟩

/-- User 1 after a number of trips, all with the same short-term secret. -/
def traveller (trips : Nat) : UserData := ⟨0, 0, none, (range trips).map (· % word)⟩

def Db.travelled (trips : Nat) : Db :=
  ⟨trips % word, update (fun _ => none) 1 (some (traveller trips)), [0]⟩

theorem run_travelled (trips : Nat) : ∃ journal, Run false trips journal (.travelled trips) := by
  induction trips with
  | zero => exact ⟨_, @Run.succeeds false _ _ _ _ (.register 0 0 1) .start rfl⟩
  | succ trips ih =>
    obtain ⟨journal, before⟩ := ih
    have counts : addWord false (trips % word) 1 = .ok ((trips + 1) % word) := by
      unfold addWord
      split
      · next fits => rw [← Nat.mod_add_mod, Nat.mod_eq_of_lt fits]; rfl
      · rw [Nat.mod_add_mod]; rfl
    have checkin : (Db.travelled trips).modify false (.checkin 1 0 0) =
        .ok (Db.setUser ⟨(trips + 1) % word, (Db.travelled trips).users, [0]⟩ 1
          { traveller trips with currentTrip := some (trips % word) }, true) := by
      simp [Db.modify, Db.entry, Db.setUser, Db.travelled, traveller, counts]
    have checkout : (Db.setUser ⟨(trips + 1) % word, (Db.travelled trips).users, [0]⟩ 1
          { traveller trips with currentTrip := some (trips % word) }).modify false
        (.checkout 1 0 0) = .ok (.travelled (trips + 1), true) := by
      simp [Db.modify, Db.entry, Db.setUser, Db.travelled, traveller, range_succ]
    exact ⟨_, (before.succeeds checkin).succeeds checkout⟩

theorem traveller_repeats {trips : Nat} (all : word < trips) :
    ¬ (traveller trips).tripIds.Nodup := by
  intro distinct
  have positive : 0 < word := Nat.two_pow_pos 64
  have same := inj_on_of_nodup_map (nodup_reverse.mp distinct)
    (mem_range.mpr (Nat.lt_trans positive all)) (mem_range.mpr all) (by simp)
  exact absurd same (Nat.ne_of_lt positive)

/-- A build without overflow checks starts with id 0 again when all ids were used. -/
theorem trip_ids_repeat : ∃ journal db user, Run false (word + 1) journal db ∧
    db.users 1 = some user ∧ ¬ user.tripIds.Nodup := by
  obtain ⟨journal, run⟩ := run_travelled (word + 1)
  exact ⟨journal, _, traveller (word + 1), run, by simp only [Db.travelled, update_self],
    traveller_repeats (Nat.lt_succ_self word)⟩

end Abcperf.Maas
