import Abcperf.Minbft.Platform

/-! What MinBFT checks of a message before it processes it (`PeerMessage::validate`). -/

namespace Abcperf.Minbft

open Lib Lib.Outcome

variable {P : Platform}

inductive MsgType
  | prepare
  | commit
  | viewChange
  | newView
  | checkpoint
  deriving DecidableEq

inductive InnerError
  | commitFromPrimary (receiver primary : Nat)
  | prepareFromBackup (receiver backup view : Nat)
  | checkpointCertNotSufficientMsgs (receiver origin : Nat)
  | checkpointCertNotAllSameStateHash (receiver origin : Nat)
  | checkpointCertNotAllDifferentOrigin (receiver origin : Nat)
  | newViewIncorrectNewPrimary (receiver : Nat)
  | newViewCheckpointCertNotSufficientMsgs (receiver : Nat)
  | newViewCheckpointCertNotAllSameNextView (receiver : Nat)
  | newViewCheckpointCertNotAllDifferentOrigin (receiver : Nat)
  | newViewContentUnexpectedNextView (receiver originActual originExpected : Nat)
  | usig (error : UsigError) (replica : Nat) (msgType : MsgType) (origin : Nat)
  | viewChangeHolesInMessageLog (receiver origin : Nat)
  | viewChangeMessageLogEmptyWithCert (receiver origin : Nat)
  | viewChangeFirstUnexpectedCounter (receiver origin counterFirstMsg counterExpected : Nat)
  | viewChangeLastUnexpectedCounter (receiver origin counterLastMsg counterExpected : Nat)
  | viewChangeLogUnexpectedlyEmpty (receiver origin : Nat)
  | reqViewChangeIncompatiblePrevNextView (receiver origin : Nat)
  deriving DecidableEq

inductive Error
  | commit (receiver origin : Nat)
  | prepare (receiver origin : Nat)
  | checkpointCert (receiver origin : Nat)
  | newViewCheckpointCert (receiver : Nat)
  | newView (receiver origin : Nat)
  | viewChange (receiver origin : Nat)
  | reqViewChange (receiver origin : Nat)
  | attestation (receiver origin : Nat)
  | usig (replica : Nat) (msgType : MsgType) (error : UsigError)
  | stateTransferRequired (replica : Nat)
  deriving DecidableEq

def Error.ofInner : InnerError → Error
  | .commitFromPrimary receiver primary => .commit receiver primary
  | .prepareFromBackup receiver backup _ => .prepare receiver backup
  | .checkpointCertNotSufficientMsgs receiver origin
  | .checkpointCertNotAllSameStateHash receiver origin
  | .checkpointCertNotAllDifferentOrigin receiver origin => .checkpointCert receiver origin
  | .newViewIncorrectNewPrimary receiver
  | .newViewCheckpointCertNotSufficientMsgs receiver
  | .newViewCheckpointCertNotAllSameNextView receiver
  | .newViewCheckpointCertNotAllDifferentOrigin receiver => .newViewCheckpointCert receiver
  | .newViewContentUnexpectedNextView receiver originActual _ => .newView receiver originActual
  | .usig error replica msgType _ => .usig replica msgType error
  | .viewChangeHolesInMessageLog receiver origin
  | .viewChangeMessageLogEmptyWithCert receiver origin
  | .viewChangeFirstUnexpectedCounter receiver origin _ _
  | .viewChangeLastUnexpectedCounter receiver origin _ _
  | .viewChangeLogUnexpectedlyEmpty receiver origin => .viewChange receiver origin
  | .reqViewChangeIncompatiblePrevNextView receiver origin => .reqViewChange receiver origin

abbrev Validation := Outcome (Except InnerError Unit)

namespace Validation

def accept : Validation := .ok (.ok ())

def reject (error : InnerError) : Validation := .ok (.error error)

def andThen (first next : Validation) : Validation := do
  match ← first with
  | .ok () => next
  | .error error => reject error

def all {α : Type} (check : α → Validation) (items : List α) : Validation :=
  items.foldr (fun item rest => (check item).andThen rest) accept

@[simp] theorem accept_ok : accept = .ok (.ok ()) := rfl

@[simp] theorem reject_ok (error : InnerError) : reject error ≠ .ok (.ok ()) := by
  simp [reject]

@[simp] theorem andThen_ok {first next : Validation} :
    first.andThen next = .ok (.ok ()) ↔ first = .ok (.ok ()) ∧ next = .ok (.ok ()) := by
  rcases first with panic | error | value
  · simp [andThen, bind, Except.bind]
  · simp [andThen, bind, Except.bind, reject]
  · simp [andThen, bind, Except.bind]

@[simp] theorem all_ok {α : Type} {check : α → Validation} {items : List α} :
    all check items = .ok (.ok ()) ↔ ∀ item ∈ items, check item = .ok (.ok ()) := by
  induction items with
  | nil => simp [all]
  | cons item rest ih =>
    change (check item).andThen (all check rest) = _ ↔ _
    simp [ih]

end Validation

open Validation

def UsigMessageV.checkSignature (config : Config) (usig : Usig P) (msgType : MsgType)
    (message : UsigMessage P) : Validation :=
  match usig.verify message.signed with
  | .ok () => accept
  | .error error => reject (.usig error config.id msgType message.origin)

namespace UsigSigned

/-- `Prepare::validate`. `RequestBatch::validate` accepts every batch. -/
def validatePrepare (config : Config) (usig : Usig P) (prepare : Prepare P) : Validation := do
  if !(← config.isPrimary prepare.data.view prepare.data.origin) then
    reject (.prepareFromBackup config.id prepare.data.origin prepare.data.view)
  else UsigMessageV.checkSignature config usig .prepare (.view (.prepare prepare))

def validateCommit (config : Config) (usig : Usig P) (commit : Commit P) : Validation :=
  if commit.data.origin = commit.data.prepare.data.origin then
    reject (.commitFromPrimary config.id commit.data.origin)
  else (commit.data.prepare.validatePrepare config usig).andThen
    (UsigMessageV.checkSignature config usig .commit (.view (.commit commit)))

def validateCheckpoint (config : Config) (usig : Usig P) (checkpoint : Checkpoint P) : Validation :=
  UsigMessageV.checkSignature config usig .checkpoint (.checkpoint checkpoint)

def sameCheckpoint (left right : Checkpoint P) : Bool :=
  left.data.counterLatestPrep = right.data.counterLatestPrep &&
    left.data.viewLatestPrep = right.data.viewLatestPrep &&
    left.data.stateHash = right.data.stateHash &&
    left.data.totalAmountAcceptedBatches = right.data.totalAmountAcceptedBatches &&
    left.data.lastExecutedClientReq = right.data.lastExecutedClientReq &&
    left.data.usigAttestations = right.data.usigAttestations &&
    left.data.recoveringReplicas = right.data.recoveringReplicas

end UsigSigned

def CheckpointCertificate.validate (config : Config) (usig : Usig P)
    (certificate : CheckpointCertificate P) : Validation :=
  let mine := certificate.myCheckpoint
  let others := certificate.otherCheckpoints
  if others.length < config.t then
    reject (.checkpointCertNotSufficientMsgs config.id mine.data.origin)
  else if ¬ ((mine :: others).map (·.data.origin)).Nodup then
    reject (.checkpointCertNotAllDifferentOrigin config.id mine.data.origin)
  else if !others.all mine.sameCheckpoint then
    reject (.checkpointCertNotAllSameStateHash config.id mine.data.origin)
  else (mine.validateCheckpoint config usig).andThen
    (all (fun other => other.validateCheckpoint config usig) others)

namespace UsigSigned

def seqNumMsgs (viewChange : ViewChange P) : List Nat :=
  (viewChange.data.variant.map (·.message.counter)).insertionSort (· ≤ ·)

def validateFirst (config : Config) (usig : Usig P) (viewChange : ViewChange P) : Validation :=
  let origin := viewChange.data.origin
  match viewChange.data.checkpointCert with
  | some certificate =>
    (certificate.validate config usig).andThen <|
      match viewChange.seqNumMsgs.head? with
      | none => reject (.viewChangeMessageLogEmptyWithCert config.id origin)
      | some first =>
        if certificate.myCheckpoint.counter < first then
          reject (.viewChangeFirstUnexpectedCounter config.id origin first
            certificate.myCheckpoint.counter)
        else accept
  | none =>
    match viewChange.seqNumMsgs.head? with
    | none => accept
    | some first =>
      if first ≠ 0 then
        reject (.viewChangeFirstUnexpectedCounter config.id origin first 0)
      else accept

def validateHoles (overflowChecks : Bool) (config : Config) (viewChange : ViewChange P) :
    Validation := do
  let counters := viewChange.seqNumMsgs
  match counters.head?, counters.getLast? with
  | some first, some last =>
    if counters.length ≠ (← addWord overflowChecks (last - first) 1) then
      reject (.viewChangeHolesInMessageLog config.id viewChange.data.origin)
    else accept
  | _, _ => accept

/-- The last message of the log, which is not the one with the highest counter if the log is not in
order. -/
def validateLast (overflowChecks : Bool) (config : Config) (viewChange : ViewChange P) :
    Validation := do
  let origin := viewChange.data.origin
  match viewChange.data.variant.getLast? with
  | some last =>
    let expected ← subWord overflowChecks viewChange.counter 1
    if last.message.counter ≠ expected then
      reject (.viewChangeLastUnexpectedCounter config.id origin last.message.counter expected)
    else accept
  | none =>
    if viewChange.counter ≠ 0 then
      reject (.viewChangeLogUnexpectedlyEmpty config.id origin)
    else accept

/-- `ViewChange::validate`. A bad signature is reported as one of a `Commit`. -/
def validateViewChange (overflowChecks : Bool) (config : Config) (usig : Usig P)
    (viewChange : ViewChange P) : Validation :=
  (UsigMessageV.checkSignature config usig .commit (.viewChange viewChange)).andThen <|
    (viewChange.validateFirst config usig).andThen <|
      (viewChange.validateHoles overflowChecks config).andThen
        (viewChange.validateLast overflowChecks config)

def validateNewView (config : Config) (usig : Usig P) (newView : NewView P) : Validation := do
  let isPrimary ← config.isPrimary newView.data.nextView newView.data.origin
  (UsigMessageV.checkSignature config usig .newView (.newView newView)).andThen <|
    if !isPrimary then
      reject (.newViewContentUnexpectedNextView config.id newView.data.origin
        (config.primary newView.data.nextView))
    else accept

def validateCertificate (overflowChecks : Bool) (config : Config) (usig : Usig P)
    (newView : NewView P) : Validation :=
  let viewChanges := newView.data.certificate
  if newView.data.origin ≠ config.primary newView.data.nextView then
    reject (.newViewIncorrectNewPrimary config.id)
  else if viewChanges.length ≤ config.t then
    reject (.newViewCheckpointCertNotSufficientMsgs config.id)
  else if viewChanges.any (fun viewChange => viewChange.data.nextView ≠ newView.data.nextView) then
    reject (.newViewCheckpointCertNotAllSameNextView config.id)
  else if ¬ (viewChanges.map (·.data.origin)).Nodup then
    reject (.newViewCheckpointCertNotAllDifferentOrigin config.id)
  else all (fun viewChange => viewChange.validateViewChange overflowChecks config usig) viewChanges

end UsigSigned

def UsigMessageV.validate (overflowChecks : Bool) (config : Config) (usig : Usig P) :
    UsigMessage P → Validation
  | .view (.prepare message) => message.validatePrepare config usig
  | .view (.commit message) => message.validateCommit config usig
  | .viewChange message => message.validateViewChange overflowChecks config usig
  | .newView message => message.validateNewView config usig
  | .checkpoint message => message.validateCheckpoint config usig

def ReqViewChange.validate (config : Config) (origin : Nat) (request : ReqViewChange) :
    Validation :=
  if request.prevView < request.nextView then accept
  else reject (.reqViewChangeIncompatiblePrevNextView config.id origin)

/-- The pending views of a `Forward` and a `RecoveryReply` are not checked. -/
def PeerMessage.validate (overflowChecks : Bool) (config : Config) (usig : Usig P) (replica : Nat) :
    PeerMessage P → Validation
  | .usig message | .forward _ message _ => message.validate overflowChecks config usig
  | .reqViewChange request => request.validate config replica
  | .hello _ | .recoveryRequest _ _ | .recoveryReply _ _ _ => accept

end Abcperf.Minbft
