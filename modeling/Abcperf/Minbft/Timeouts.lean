import Abcperf.Minbft.MessageLogs

/-! How long the timeouts of a MinBFT replica become. A timeout of a client or of a view change can
multiply the duration, which is carried over from view to view, and no other call changes it. -/

namespace Abcperf.Minbft

open Lib Lib.Outcome

variable {P : Platform} {config : Config} {usig : Usig P}

/-- What can happen to a replica. -/
inductive Event (P : Platform)
  | message (source : Nat) (message : PeerMessage P)
  | request (client requestId : Nat) (payload : P.Payload)
  | timeout (timeoutType : TimeoutType)

def Event.backsOff : Event P → Bool
  | .timeout .client | .timeout .viewChange => true
  | .timeout .batch | .message _ _ | .request _ _ _ => false

namespace MinBft

def handle (env : Env) (minbft : MinBft P config) : Event P → Outcome (MinBft P config × Output P)
  | .message source message => minbft.handlePeerMessage env source message
  | .request client requestId payload => minbft.handleClientMessage env client requestId payload
  | .timeout timeoutType => minbft.handleTimeout env timeoutType

/-- A replica from its creation on, with or without recovery. Every call has an environment of its
own. -/
inductive Run (usig : Usig P) : List (Event P) → MinBft P config → Prop
  | new {env : Env} {recovering : Option Nat} {minbft : MinBft P config} {output : Output P}
      (run : MinBft.new env usig config recovering = .ok (.ok (minbft, output))) :
      Run usig [] minbft
  | call {env : Env} {events : List (Event P)} {event : Event P} {minbft next : MinBft P config}
      {output : Output P} (before : Run usig events minbft)
      (run : minbft.handle env event = .ok (next, output)) : Run usig (events ++ [event]) next

def handleAll (env : Env) (events : List (Event P)) (minbft : MinBft P config) :
    Outcome (MinBft P config) :=
  events.foldlM (fun minbft event => Prod.fst <$> minbft.handle env event) minbft

variable {env : Env} {minbft next : MinBft P config} {output : Output P}

theorem Run.handleAll {earlier events : List (Event P)} (before : Run usig earlier minbft)
    (run : minbft.handleAll env events = .ok next) : Run usig (earlier ++ events) next := by
  induction events generalizing earlier minbft with
  | nil =>
    cases pure_ok.mp run
    rwa [List.append_nil]
  | cons event events ih =>
    simp only [MinBft.handleAll, List.foldlM_cons, bind_ok, map_ok] at run
    obtain ⟨_, ⟨⟨middle, output⟩, handled, rfl⟩, run⟩ := run
    rw [List.append_cons]
    exact ih (before.call handled) run

theorem reflect_duration (run : minbft.reflect env = .ok (next, output)) :
    next.currentTimeoutDuration = minbft.currentTimeoutDuration := by
  obtain ⟨replica, -, isNext⟩ := bind_ok.mp run
  cases pure_ok.mp isNext
  rfl

theorem new_duration {recovering : Option Nat}
    (run : MinBft.new env usig config recovering = .ok (.ok (minbft, output))) :
    minbft.currentTimeoutDuration = config.initialTimeoutDuration := by
  obtain ⟨-, -, run⟩ := bind_ok.mp run
  dsimp only at run
  split at run
  · cases pure_ok.mp run
  · obtain ⟨_, run, isNext⟩ := map_ok.mp run
    cases isNext
    exact reflect_duration run
  · obtain ⟨-, -, run⟩ := bind_ok.mp run
    obtain ⟨_, run, isNext⟩ := map_ok.mp run
    cases isNext
    exact reflect_duration run

theorem handlePeerMessage_duration {source : Nat} {message : PeerMessage P}
    (run : minbft.handlePeerMessage env source message = .ok (next, output)) :
    next.currentTimeoutDuration = minbft.currentTimeoutDuration := by
  simp only [handlePeerMessage, bind_ok] at run
  obtain ⟨-, -, -, -, result, -, run⟩ := run
  split at run
  · obtain ⟨replica, -, run⟩ := bind_ok.mp run
    exact (reflect_duration run).trans rfl
  · split at run <;> exact (reflect_duration run).trans rfl

theorem backOff_duration (run : minbft.backOff = .ok next) :
    next.currentTimeoutDuration = minbft.currentTimeoutDuration * config.backoffMultiplier := by
  unfold backOff at run
  dsimp only at run
  split at run <;> cases run
  rfl

theorem processTimeout_duration {timeoutType : TimeoutType}
    (run : minbft.processTimeout env timeoutType = .ok next) :
    next.currentTimeoutDuration = minbft.currentTimeoutDuration ∨
      Event.backsOff (P := P) (.timeout timeoutType) = true ∧
        next.currentTimeoutDuration = minbft.currentTimeoutDuration * config.backoffMultiplier := by
  unfold processTimeout at run
  dsimp only at run
  split at run
  · simp only [bind_ok, pure_ok] at run
    obtain ⟨-, -, -, -, rfl⟩ := run
    exact .inl rfl
  · split at run
    · cases pure_ok.mp run
      exact .inl rfl
    simp only [bind_ok, pure_ok] at run
    obtain ⟨slower, slows, -, -, rfl⟩ := run
    have longer := backOff_duration slows
    exact .inr ⟨rfl, longer⟩
  · simp only [bind_ok, pure_ok] at run
    obtain ⟨slower, slows, -, -, rfl⟩ := run
    have longer := backOff_duration slows
    exact .inr ⟨rfl, longer⟩
  all_goals
    cases pure_ok.mp run
    exact .inl rfl

theorem handle_duration {event : Event P} (run : minbft.handle env event = .ok (next, output)) :
    next.currentTimeoutDuration = minbft.currentTimeoutDuration ∨ event.backsOff = true ∧
      next.currentTimeoutDuration = minbft.currentTimeoutDuration * config.backoffMultiplier := by
  cases event with
  | message source message => exact .inl (handlePeerMessage_duration run)
  | request client requestId payload =>
    obtain ⟨replica, -, run⟩ := bind_ok.mp run
    exact .inl ((reflect_duration run).trans rfl)
  | timeout timeoutType =>
    obtain ⟨timed, processed, run⟩ := bind_ok.mp run
    have timedOut := processTimeout_duration processed
    rwa [← reflect_duration run] at timedOut

/-- The duration has been multiplied at most once for each of these timeouts. -/
theorem Run.duration {events : List (Event P)} (run : Run usig events minbft) :
    ∃ times ≤ events.countP Event.backsOff,
      minbft.currentTimeoutDuration = config.initialTimeoutDuration * config.backoffMultiplier
        ^ times := by
  induction run with
  | new run => exact ⟨0, Nat.zero_le _, by rw [new_duration run, Nat.pow_zero, Nat.mul_one]⟩
  | @call env events event minbft next output before run ih =>
    obtain ⟨times, few, before⟩ := ih
    rw [List.countP_append, List.countP_singleton]
    rcases handle_duration run with same | ⟨slows, longer⟩
    · exact ⟨times, few.trans (Nat.le_add_right _ _), same.trans before⟩
    · refine ⟨times + 1, by rw [if_pos slows]; omega, ?_⟩
      rw [longer, before, Nat.pow_succ, Nat.mul_assoc]

/-- As long as the initial duration can be multiplied once for each timeout of a client or of a view
change and once more, the next timeout does not panic for its duration. -/
theorem timeouts_back_off {events : List (Event P)} (run : Run usig events minbft)
    (fits : config.initialTimeoutDuration *
      config.backoffMultiplier ^ (events.countP Event.backsOff + 1) ≤ durationMax) :
    ∃ next, minbft.backOff = .ok next := by
  obtain ⟨times, few, isDuration⟩ := run.duration
  have product : minbft.currentTimeoutDuration * config.backoffMultiplier ≤ durationMax := by
    rw [isDuration, Nat.mul_assoc, ← Nat.pow_succ]
    refine Nat.le_trans (Nat.mul_le_mul_left _ ?_) fits
    rcases Nat.eq_zero_or_pos config.backoffMultiplier with zero | positive
    · simp [zero]
    · exact Nat.pow_le_pow_right positive (Nat.succ_le_succ few)
  exact ⟨_, if_pos product⟩

end MinBft

namespace Plain

/-- A timeout of one second that gets 255 times as long. -/
def slow : Config := { trio with initialTimeoutDuration := 10 ^ 9, backoffMultiplier := 255 }

/-- The replica leaves view 0 together with replica 1, and the changes to the next views time out.
-/
def delays (changes : Nat) : List (Event platform) :=
  [.timeout .client, .message 1 (.reqViewChange ⟨0, 1⟩)] ++
    List.replicate changes (.timeout .viewChange)

def delayed (changes : Nat) : Outcome (MinBft platform slow) := do
  match ← MinBft.new env attested slow none with
  | .error _ => throw .unwrap
  | .ok (minbft, _) => minbft.handleAll env (delays changes)

theorem delayed_run {changes : Nat} {minbft : MinBft platform slow}
    (run : delayed changes = .ok minbft) : minbft.Run attested (delays changes) := by
  obtain ⟨first, isFirst, run⟩ := bind_ok.mp run
  match first with
  | .ok (created, output) => exact (MinBft.Run.new isFirst).handleAll run

end Plain

theorem timeouts_back_off_seven : ∃ minbft next : MinBft Plain.platform Plain.slow,
    minbft.Run Plain.attested (Plain.delays 6) ∧ minbft.backOff = .ok next := by
  obtain ⟨minbft, played⟩ : ∃ minbft, Plain.delayed 6 = .ok minbft := ⟨_, rfl⟩
  have run := Plain.delayed_run played
  obtain ⟨next, longer⟩ := MinBft.timeouts_back_off run (by decide)
  exact ⟨minbft, next, run, longer⟩

/-- After eight of these timeouts the next one panics. -/
theorem ninth_timeout_panics : ∃ minbft : MinBft Plain.platform Plain.slow,
    minbft.Run Plain.attested (Plain.delays 7) ∧
      minbft.handleTimeout Plain.env .viewChange = .error .overflow := by
  obtain ⟨minbft, played⟩ : ∃ minbft, Plain.delayed 7 = .ok minbft := ⟨_, rfl⟩
  have panics : (Plain.delayed 7 >>= fun minbft => minbft.handleTimeout Plain.env .viewChange) =
      .error .overflow := rfl
  rw [played] at panics
  exact ⟨minbft, Plain.delayed_run played, panics⟩

end Abcperf.Minbft
