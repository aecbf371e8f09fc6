import Mathlib.Logic.Relation

/-! Searching a graph whose vertices carry marks. A search goes only through vertices without a mark
and marks each vertex it expands, so what it finds are the ends of open paths: those on which
nothing was marked before the search. -/

namespace Abcperf.Lib

open List Relation

variable {V : Type}

def OpenPath (edge : V → V → Prop) (marked : V → Prop) (start finish : V) : Prop :=
  ¬ marked start ∧
    ReflTransGen (fun above below => edge above below ∧ ¬ marked below) start finish

namespace OpenPath

variable {edge : V → V → Prop} {marked after : V → Prop} {start next finish vertex : V}

theorem refl (fresh : ¬ marked start) : OpenPath edge marked start start :=
  ⟨fresh, ReflTransGen.refl⟩

theorem head (fresh : ¬ marked start) (isEdge : edge start next)
    (rest : OpenPath edge marked next finish) : OpenPath edge marked start finish :=
  ⟨fresh, ReflTransGen.head ⟨isEdge, rest.1⟩ rest.2⟩

section

variable (path : OpenPath edge marked start finish)

include path

theorem reaches : ReflTransGen edge start finish := by
  refine ReflTransGen.mono ?_ _ _ path.2
  exact fun _ _ step => step.1

theorem finish_fresh : ¬ marked finish := by
  rcases ReflTransGen.cases_tail path.2 with same | ⟨_, _, step⟩
  · exact same ▸ path.1
  · exact step.2

theorem head_induction {motive : V → Prop} (arrive : ¬ marked finish → motive finish)
    (step : ∀ above below, ¬ marked above → edge above below →
      OpenPath edge marked below finish → motive below → motive above) : motive start := by
  obtain ⟨fresh, steps⟩ := path
  induction steps using ReflTransGen.head_induction_on with
  | refl => exact arrive fresh
  | head first rest ih => exact step _ _ fresh first.1 ⟨first.2, rest⟩ (ih first.2)

end

theorem transfer {edge' : V → V → Prop} {marked' : V → Prop} (inside : V → Prop)
    (path : OpenPath edge marked start finish)
    (within : ∀ vertex, ReflTransGen edge vertex finish → inside vertex)
    (edges : ∀ above below, inside above → inside below → edge above below → edge' above below)
    (marks : ∀ vertex, inside vertex → marked' vertex → marked vertex) :
    OpenPath edge' marked' start finish := by
  refine path.head_induction (motive := fun start => OpenPath edge' marked' start finish) ?_ ?_
  · intro fresh
    exact refl fun isMarked => fresh (marks _ (within finish ReflTransGen.refl) isMarked)
  intro above below fresh isEdge rest later
  have below' := within below rest.reaches
  have above' := within above (ReflTransGen.head isEdge rest.reaches)
  exact head (fun isMarked => fresh (marks above above' isMarked))
    (edges above below above' below' isEdge) later

/-- After `vertex` was marked, an open path avoids it or goes on from one of its neighbours. -/
theorem split (marks : ∀ other, after other ↔ other = vertex ∨ marked other)
    (path : OpenPath edge marked start finish) :
    finish = vertex ∨ OpenPath edge after start finish ∨
      ∃ next, edge vertex next ∧ ¬ marked next ∧ OpenPath edge after next finish := by
  by_cases isFinish : finish = vertex
  · exact .inl isFinish
  refine .inr (path.head_induction (motive := fun start => OpenPath edge after start finish ∨
    ∃ next, edge vertex next ∧ ¬ marked next ∧ OpenPath edge after next finish) ?_ ?_)
  · intro fresh
    exact .inl (refl fun isMarked => ((marks finish).mp isMarked).elim isFinish fresh)
  intro above below fresh isEdge rest later
  rcases later with avoids | passes
  · by_cases isVertex : above = vertex
    · exact .inr ⟨below, isVertex ▸ isEdge, rest.1, avoids⟩
    · exact .inl (head (fun isMarked => ((marks above).mp isMarked).elim isVertex fresh)
        isEdge avoids)
  · exact .inr passes

theorem skip {waiting : List V} (isMarked : marked vertex) :
    (∃ start ∈ vertex :: waiting, OpenPath edge marked start finish) ↔
      ∃ start ∈ waiting, OpenPath edge marked start finish := by
  constructor
  · rintro ⟨start, member, path⟩
    rcases mem_cons.mp member with rfl | later
    · exact absurd isMarked path.1
    · exact ⟨start, later, path⟩
  · rintro ⟨start, member, path⟩
    exact ⟨start, mem_cons_of_mem _ member, path⟩

/-- Expanding a vertex that waits: its unmarked neighbours wait in its place. -/
theorem expand {waiting pending : List V} (fresh : ¬ marked vertex)
    (marks : ∀ other, after other ↔ other = vertex ∨ marked other)
    (pushed : ∀ other, other ∈ pending ↔ other ∈ waiting ∨ (edge vertex other ∧ ¬ marked other)) :
    (∃ start ∈ vertex :: waiting, OpenPath edge marked start finish) ↔
      finish = vertex ∨ ∃ start ∈ pending, OpenPath edge after start finish := by
  constructor
  · rintro ⟨start, member, path⟩
    rcases split marks path with isFinish | avoids | ⟨next, isEdge, isFresh, rest⟩
    · exact .inl isFinish
    · rcases mem_cons.mp member with rfl | later
      · exact absurd ((marks start).mpr (.inl rfl)) avoids.1
      · exact .inr ⟨start, (pushed start).mpr (.inl later), avoids⟩
    · exact .inr ⟨next, (pushed next).mpr (.inr ⟨isEdge, isFresh⟩), rest⟩
  rintro (rfl | ⟨start, member, path⟩)
  · exact ⟨finish, mem_cons_self, refl fresh⟩
  have older : OpenPath edge marked start finish :=
    path.transfer (fun _ => True) (fun _ _ => trivial) (fun _ _ _ _ isEdge => isEdge)
      fun other _ isMarked => (marks other).mpr (.inr isMarked)
  rcases (pushed start).mp member with waits | ⟨isEdge, _⟩
  · exact ⟨start, mem_cons_of_mem _ waits, older⟩
  · exact ⟨vertex, mem_cons_self, head fresh isEdge older⟩

/-- If the marks are closed under edges, a path to an unmarked vertex is open. -/
theorem iff_of_closed (closed : ∀ above below, marked above → edge above below → marked below) :
    OpenPath edge marked start finish ↔ ReflTransGen edge start finish ∧ ¬ marked finish := by
  constructor
  · intro path
    exact ⟨path.reaches, path.finish_fresh⟩
  rintro ⟨path, fresh⟩
  induction path using ReflTransGen.head_induction_on with
  | refl => exact refl fresh
  | head isEdge _ rest =>
    exact head (fun isMarked => rest.1 (closed _ _ isMarked isEdge)) isEdge rest

end OpenPath

end Abcperf.Lib
