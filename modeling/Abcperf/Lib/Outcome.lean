import Mathlib.Data.List.Basic

/-! Calls that may stop before they return. A failed assertion, an `unwrap` of nothing, an
arithmetic overflow and a loop that was not given enough iterations are all outcomes without a
result; a caller that needs a result sees none of them. -/

namespace Abcperf.Lib

open List

inductive Panic
  | assertion
  | unwrap
  | overflow
  | unreachable
  | fuel
  deriving DecidableEq, Repr

abbrev Outcome (α : Type) := Except Panic α

instance {α : Type} (outcome : Outcome α) (panic : Panic) : Decidable (outcome = .error panic) :=
  match outcome with
  | .error other => decidable_of_iff (other = panic) ⟨congrArg _, Except.error.inj⟩
  | .ok _ => .isFalse nofun

namespace Outcome

def assert (condition : Prop) [Decidable condition] : Outcome Unit :=
  if condition then .ok () else .error .assertion

def ensure {E : Type} (condition : Prop) [Decidable condition] (error : E) : Except E Unit :=
  if condition then .ok () else .error error

def unwrap {α : Type} : Option α → Outcome α
  | some value => .ok value
  | none => .error .unwrap

/-- `expect` on a result: an error ends the call. -/
def expect {E α : Type} : Except E α → Outcome α
  | .ok value => .ok value
  | .error _ => .error .unwrap

/-! The rules that take a computation apart hold for every type of errors. -/

variable {E α β : Type} {result value : α}

@[simp] theorem bind_ok {first : Except E α} {next : α → Except E β} {result : β} :
    (first >>= next) = .ok result ↔ ∃ value, first = .ok value ∧ next value = .ok result := by
  cases first with
  | error panic => simp [bind, Except.bind]
  | ok value => simp [bind, Except.bind]

@[simp] theorem map_ok {first : Except E α} {change : α → β} {result : β} :
    (change <$> first) = .ok result ↔ ∃ value, first = .ok value ∧ change value = result := by
  cases first with
  | error panic => simp [Functor.map, Except.map]
  | ok value => simp [Functor.map, Except.map]

@[simp] theorem pure_ok : (pure value : Except E α) = .ok result ↔ value = result := by
  simp [pure, Except.pure]

theorem pair_ok {other : β} {pair : α × β} :
    (pure pair : Except E (α × β)) = .ok (value, other) ↔ pair.1 = value ∧ pair.2 = other := by
  rw [pure_ok, Prod.ext_iff]

@[simp] theorem toOption_eq_some {outcome : Except E α} :
    outcome.toOption = some result ↔ outcome = .ok result := by
  cases outcome with
  | error panic => simp [Except.toOption]
  | ok value => simp [Except.toOption]

@[simp] theorem throw_ne_ok {error : E} : (throw error : Except E α) ≠ .ok result := by
  simp [throw, throwThe, MonadExceptOf.throw]

@[simp] theorem assert_ok {condition : Prop} [Decidable condition] {done : Unit} :
    assert condition = .ok done ↔ condition := by
  by_cases holds : condition <;> simp [assert, holds]

@[simp] theorem ensure_ok {condition : Prop} [Decidable condition] {error : E} {done : Unit} :
    ensure condition error = .ok done ↔ condition := by
  by_cases holds : condition <;> simp [ensure, holds]

@[simp] theorem unwrap_ok {option : Option α} : unwrap option = .ok value ↔
    option = some value := by
  cases option <;> simp [unwrap]

@[simp] theorem expect_ok {result : Except E α} : expect result = .ok value ↔
    result = .ok value := by
  cases result <;> simp [expect]

theorem forall_mem_concat {holds : α → Prop} {items : List α} {new : α}
    (earlier : ∀ item ∈ items, holds item) (isNew : holds new) :
    ∀ item ∈ items ++ [new], holds item :=
  forall_mem_append.mpr ⟨earlier, forall_mem_singleton.mpr isNew⟩

theorem foldlM_keeps (keeps : β → Prop) (step : β → α → Outcome β) (items : List α)
    (start finish : β)
    (each : ∀ state item next, item ∈ items → keeps state → step state item = .ok next → keeps next)
    (holds : keeps start) (run : items.foldlM step start = .ok finish) : keeps finish := by
  induction items generalizing start finish with
  | nil =>
    simp only [foldlM_nil, pure_ok] at run
    exact run ▸ holds
  | cons item rest ih =>
    simp only [foldlM_cons, bind_ok] at run
    obtain ⟨middle, first, later⟩ := run
    refine ih middle finish ?_ (each start item middle mem_cons_self holds first) later
    intro state next result member
    exact each state next result (mem_cons_of_mem _ member)

/-- What every step keeps holds at the end, and so does what can be computed there. -/
theorem foldlM_reaches {keeps ends : β → Prop} [DecidablePred ends] {step : β → α → Option β}
    (each : ∀ {state item next}, keeps state → step state item = some next → keeps next)
    {items : List α} {start : β} (holds : keeps start)
    (run : (items.foldlM step start).any (decide <| ends ·) = true) :
    ∃ finish, keeps finish ∧ ends finish := by
  induction items generalizing start with
  | nil => exact ⟨start, holds, of_decide_eq_true run⟩
  | cons item rest ih =>
    obtain ⟨finish, ran, _⟩ := (Option.any_eq_true _ _).mp run
    obtain ⟨middle, first, later⟩ := Option.bind_eq_some_iff.mp ran
    rw [foldlM_cons, first] at run
    exact ih (each holds first) run

theorem mem_mapM {step : α → Outcome β} :
    ∀ {items : List α} {results : List β}, items.mapM step = .ok results →
      ∀ result ∈ results, ∃ item ∈ items, step item = .ok result := by
  intro items
  induction items with
  | nil =>
    intro results run result member
    simp only [mapM_nil, pure_ok] at run
    subst run
    cases member
  | cons item rest ih =>
    intro results run result member
    simp only [mapM_cons, bind_ok, pure_ok] at run
    obtain ⟨first, firstOk, others, othersOk, rfl⟩ := run
    rcases mem_cons.mp member with rfl | later
    · exact ⟨item, mem_cons_self, firstOk⟩
    · obtain ⟨source, isSource, sourceOk⟩ := ih othersOk result later
      exact ⟨source, mem_cons_of_mem _ isSource, sourceOk⟩

end Outcome

def word : Nat := Nat.pow 2 64

/-- The sum of two `u64`. With overflow checks the call panics where it does not fit, without them
it wraps around. -/
def addWord (overflowChecks : Bool) (left right : Nat) : Outcome Nat :=
  if left + right < word then return left + right
  else if overflowChecks then throw .overflow
  else return (left + right) % word

theorem addWord_fits {overflowChecks : Bool} {left right : Nat} (fits : left + right < word) :
    addWord overflowChecks left right = .ok (left + right) := if_pos fits

theorem addWord_lt {overflowChecks : Bool} {left right sum : Nat}
    (run : addWord overflowChecks left right = .ok sum) : sum < word := by
  unfold addWord at run
  split at run
  · next fits => exact Outcome.pure_ok.mp run ▸ fits
  split at run
  · cases run
  · exact Outcome.pure_ok.mp run ▸ Nat.mod_lt _ (Nat.two_pow_pos 64)

/-- With overflow checks a sum is never wrong. -/
theorem addWord_eq {overflowChecks : Bool} {left right sum : Nat}
    (fits : overflowChecks = false → left + right < word)
    (run : addWord overflowChecks left right = .ok sum) : sum = left + right := by
  unfold addWord at run
  split at run
  · exact (Outcome.pure_ok.mp run).symm
  · next long =>
    split at run
    · cases run
    · next unchecked => exact absurd (fits (Bool.not_eq_true _ ▸ unchecked)) long

def subWord (overflowChecks : Bool) (left right : Nat) : Outcome Nat :=
  if right ≤ left then return left - right
  else if overflowChecks then throw .overflow
  else return left + word - right

end Abcperf.Lib
