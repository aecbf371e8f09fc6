import Mathlib.Data.List.Infix
import Mathlib.Data.List.Nodup
import Abcperf.Lib.Marks

/-! Depth-first linearisation of a partially known graph. `Search successors stack done result` is
one run of the usual stack loop: `done` lists what earlier runs visited, in order, and `result`
extends it. The relation has no bound on the number of iterations, so it says nothing about runs
that get stuck at a vertex whose successors are unknown. -/

namespace Abcperf.Lib.DepthFirst

open List

variable {V : Type} [DecidableEq V]

inductive Search (successors : V → Option (List V)) : List V → List V → List V → Prop
  | finished (done : List V) : Search successors [] done done
  | skip {top : V} {rest done result : List V} (seen : top ∈ done)
      (next : Search successors rest done result) :
      Search successors (top :: rest) done result
  | visit {top : V} {rest done result below : List V} (fresh : top ∉ done)
      (known : successors top = some below)
      (next : Search successors
        ((below.filter (fun vertex => decide (vertex ∉ done))).reverse ++ rest)
        (done ++ [top]) result) :
      Search successors (top :: rest) done result

variable {successors small large : V → Option (List V)}
  {stack done result first second roots : List V}

theorem search_extends (run : Search successors stack done result) : done <+: result := by
  induction run with
  | finished done => exact prefix_rfl
  | skip _ _ ih => exact ih
  | visit _ _ _ ih => exact (prefix_append _ _).trans ih

theorem search_unique (left : Search successors stack done first)
    (right : Search successors stack done second) : first = second := by
  induction left generalizing second with
  | finished done =>
    cases right
    rfl
  | skip seen _ ih =>
    cases right with
    | skip _ next => exact ih next
    | visit fresh _ _ => exact absurd seen fresh
  | visit fresh known _ ih =>
    cases right with
    | skip seen _ => exact absurd seen fresh
    | visit _ known' next =>
      cases known.symm.trans known'
      exact ih next

/-- A run visits what the open paths from the stack lead to. -/
theorem search_mem (run : Search successors stack done result) (vertex : V) :
    vertex ∈ result ↔ vertex ∈ done ∨ ∃ start ∈ stack,
      OpenPath (fun above below => ∃ next, successors above = some next ∧ below ∈ next)
        (· ∈ done) start vertex := by
  induction run with
  | finished done => simp
  | skip seen _ ih => rw [ih, OpenPath.skip seen]
  | @visit top rest done result below fresh known _ ih =>
    have waiting : ∀ other, other ∈ (below.filter fun vertex =>
        decide (vertex ∉ done)).reverse ++ rest ↔
          other ∈ rest ∨ ((∃ next, successors top = some next ∧ other ∈ next) ∧ other ∉ done) := by
      intro other
      simp [known, or_comm]
    have marks : ∀ other, other ∈ done ++ [top] ↔ other = top ∨ other ∈ done := by
      intro other
      simp [or_comm]
    rw [ih, OpenPath.expand fresh marks waiting, mem_append, mem_singleton, or_assoc]

theorem search_nodup (run : Search successors stack done result) (distinct : done.Nodup) :
    result.Nodup := by
  induction run with
  | finished done => exact distinct
  | skip _ _ ih => exact ih distinct
  | visit fresh _ _ ih =>
    apply ih
    rw [nodup_append]
    refine ⟨distinct, nodup_singleton _, ?_⟩
    rintro older member last isLast rfl
    exact fresh (mem_singleton.mp isLast ▸ member)

/-- A larger graph that keeps the successors of every known vertex has the same runs. -/
theorem search_grows (grows : ∀ vertex below, small vertex = some below → large vertex = some below)
    (run : Search small stack done result) : Search large stack done result := by
  induction run with
  | finished done => exact Search.finished done
  | skip seen _ ih => exact Search.skip seen ih
  | visit fresh known _ ih => exact Search.visit fresh (grows _ _ known) ih

/-- Linearisation of a sequence of roots: each root appends what is reachable from it and was not
visited from an earlier root. -/
inductive Linear (successors : V → Option (List V)) : List V → List V → Prop
  | nil : Linear successors [] []
  | snoc {roots done result : List V} {root : V} (before : Linear successors roots done)
      (run : Search successors [root] done result) :
      Linear successors (roots ++ [root]) result

theorem linear_snoc {root : V} (linear : Linear successors (roots ++ [root]) result) :
    ∃ done, Linear successors roots done ∧ Search successors [root] done result := by
  generalize whole : roots ++ [root] = all at linear
  cases linear with
  | nil => simp at whole
  | snoc before run =>
    obtain ⟨sameRoots, sameRoot⟩ := append_inj' whole rfl
    cases sameRoot
    subst sameRoots
    exact ⟨_, before, run⟩

theorem linear_grows (grows : ∀ vertex below, small vertex = some below → large vertex = some below)
    (linear : Linear small roots result) : Linear large roots result := by
  induction linear with
  | nil => exact Linear.nil
  | snoc _ run ih => exact Linear.snoc ih (search_grows grows run)

theorem linear_unique (left : Linear successors roots first)
    (right : Linear successors roots second) : first = second := by
  induction left generalizing second with
  | nil =>
    generalize whole : ([] : List V) = all at right
    cases right with
    | nil => rfl
    | snoc _ _ => simp at whole
  | snoc _ run ih =>
    obtain ⟨done, before, run'⟩ := linear_snoc right
    cases ih before
    exact search_unique run run'

/-- A longer root sequence extends the order; it never revises it. -/
theorem linear_extends (shorter : Linear successors roots first) (more : List V)
    (longer : Linear successors (roots ++ more) second) : first <+: second := by
  induction more using List.reverseRecOn generalizing second with
  | nil =>
    rw [append_nil] at longer
    exact linear_unique shorter longer ▸ prefix_rfl
  | append_singleton more root ih =>
    rw [← append_assoc] at longer
    obtain ⟨done, before, run⟩ := linear_snoc longer
    exact (ih before).trans (search_extends run)

/-- The order is made of what is reachable from the roots, each vertex once. -/
theorem linear_mem (linear : Linear successors roots result) :
    result.Nodup ∧ ∀ vertex, vertex ∈ result ↔ ∃ root ∈ roots, Relation.ReflTransGen
      (fun above below => ∃ next, successors above = some next ∧ below ∈ next) root vertex := by
  induction linear with
  | nil => simp
  | @snoc roots done result root _ run ih =>
    obtain ⟨distinct, mem⟩ := ih
    refine ⟨search_nodup run distinct, fun vertex => ?_⟩
    have closed : ∀ above below, above ∈ done →
        (∃ next, successors above = some next ∧ below ∈ next) → below ∈ done := by
      intro above below member edge
      obtain ⟨root, isRoot, path⟩ := (mem above).mp member
      exact (mem below).mpr ⟨root, isRoot, path.tail edge⟩
    have visited := search_mem run vertex
    simp only [mem_singleton, exists_eq_left, OpenPath.iff_of_closed closed] at visited
    rw [visited, mem vertex]
    simp only [mem_append, mem_singleton]
    grind

end Abcperf.Lib.DepthFirst
