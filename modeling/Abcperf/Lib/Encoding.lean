import Mathlib.Algebra.Ring.Nat

/-! Byte streams that values are written to one after another, as they are fed to a hash function.
Nothing separates the values in the stream, so it can be read back only where the layout of the
values is known from elsewhere. -/

namespace Abcperf.Lib

open List

abbrev Bytes := List UInt8

def leBytes : Nat → Nat → Bytes
  | 0, _ => []
  | width + 1, value => UInt8.ofNat value :: leBytes width (value / 256)

def fromLeBytes : Bytes → Nat
  | [] => 0
  | byte :: rest => byte.toNat + 256 * fromLeBytes rest

@[simp] theorem leBytes_length (width value : Nat) : (leBytes width value).length = width := by
  induction width generalizing value with
  | zero => rfl
  | succ width ih => rw [leBytes, length_cons, ih]

theorem fromLeBytes_leBytes (width : Nat) :
    ∀ value, value < 256 ^ width → fromLeBytes (leBytes width value) = value := by
  induction width with
  | zero =>
    intro value low
    rw [Nat.pow_zero, Nat.lt_one_iff] at low
    rw [low]
    rfl
  | succ width ih =>
    intro value low
    have quotient : value / 256 < 256 ^ width := by
      rw [Nat.div_lt_iff_lt_mul (by decide), ← Nat.pow_succ]
      exact low
    rw [leBytes, fromLeBytes, ih _ quotient, UInt8.toNat_ofNat']
    exact Nat.mod_add_div value 256

theorem leBytes_fromLeBytes :
    ∀ bytes : Bytes, leBytes bytes.length (fromLeBytes bytes) = bytes := by
  intro bytes
  induction bytes with
  | nil => rfl
  | cons byte rest ih =>
    have low : byte.toNat < 256 := byte.toNat_lt
    have quotient : (byte.toNat + 256 * fromLeBytes rest) / 256 = fromLeBytes rest := by omega
    rw [fromLeBytes, length_cons, leBytes, quotient, ih]
    congr 1
    apply UInt8.toNat_inj.mp
    rw [UInt8.toNat_ofNat']
    omega

theorem fromLeBytes_lt (bytes : Bytes) : fromLeBytes bytes < 256 ^ bytes.length := by
  induction bytes with
  | nil => exact Nat.one_pos
  | cons byte rest ih =>
    have low : byte.toNat < 256 := byte.toNat_lt
    rw [fromLeBytes, length_cons, Nat.pow_succ]
    omega

theorem leBytes_inj {width left right : Nat} (isLeft : left < 256 ^ width)
    (isRight : right < 256 ^ width) (same : leBytes width left = leBytes width right) :
    left = right := by
  rw [← fromLeBytes_leBytes width left isLeft, same, fromLeBytes_leBytes width right isRight]

section Streams

variable {α β : Type}

/-- A value can be read back from the front of a stream by whoever reads its layout, a list of
numbers, from the front of another. `good` says which values are written at all. -/
def FramedAt (good : α → Prop) (layout : α → List Nat) (stream : α → Bytes) (left : α) : Prop :=
  ∀ right, good left → good right → ∀ marks marks' rest rest',
    layout left ++ marks = layout right ++ marks' → stream left ++ rest = stream right ++ rest' →
      left = right ∧ marks = marks' ∧ rest = rest'

variable {good : α → Prop} {layout : α → List Nat} {stream : α → Bytes} {left : α}

theorem FramedAt.inj {right : α} (framed : FramedAt good layout stream left) (isLeft : good left)
    (isRight : good right) (sameLayout : layout left = layout right)
    (same : stream left = stream right) : left = right :=
  (framed right isLeft isRight [] [] [] [] (by rw [sameLayout]) (by rw [same])).1

theorem FramedAt.imp {weaker : α → Prop} (framed : FramedAt weaker layout stream left)
    (implies : ∀ value, good value → weaker value) : FramedAt good layout stream left :=
  fun right isLeft isRight => framed right (implies left isLeft) (implies right isRight)

theorem framedAt_leBytes (width value : Nat) :
    FramedAt (· < 256 ^ width) (fun _ => []) (leBytes width) value := by
  intro other low otherLow marks marks' rest rest' sameMarks same
  obtain ⟨sameBytes, sameRest⟩ := append_inj same (by rw [leBytes_length, leBytes_length])
  exact ⟨leBytes_inj low otherLow sameBytes, sameMarks, sameRest⟩

theorem framedAt_bytes (inj : Function.Injective stream) (value : α) :
    FramedAt (fun _ => True) (fun value => [(stream value).length]) stream value := by
  intro other _ _ marks marks' rest rest' sameMarks same
  obtain ⟨lengths, sameMarks⟩ := List.cons.inj sameMarks
  obtain ⟨sameBytes, sameRest⟩ := append_inj same lengths
  exact ⟨inj sameBytes, sameMarks, sameRest⟩

theorem FramedAt.comap {good : β → Prop} {layout : β → List Nat} {stream : β → Bytes} (f : α → β)
    (inj : Function.Injective f) {value : α} (framed : FramedAt good layout stream (f value)) :
    FramedAt (fun value => good (f value)) (fun value => layout (f value))
      (fun value => stream (f value)) value := by
  intro other isGood otherGood marks marks' rest rest' sameMarks same
  obtain ⟨sameValue, sameMarks, sameRest⟩ :=
    framed (f other) isGood otherGood marks marks' rest rest' sameMarks same
  exact ⟨inj sameValue, sameMarks, sameRest⟩

theorem FramedAt.prod {good' : β → Prop} {layout' : β → List Nat} {stream' : β → Bytes} {right : β}
    (first : FramedAt good layout stream left) (second : FramedAt good' layout' stream' right) :
    FramedAt (fun pair : α × β => good pair.1 ∧ good' pair.2)
      (fun pair => layout pair.1 ++ layout' pair.2) (fun pair => stream pair.1 ++ stream' pair.2)
      (left, right) := by
  intro other isGood otherGood marks marks' rest rest' sameMarks same
  rw [append_assoc, append_assoc] at sameMarks same
  obtain ⟨sameFirst, laterMarks, later⟩ :=
    first other.1 isGood.1 otherGood.1 _ _ _ _ sameMarks same
  obtain ⟨sameSecond, sameMarks, sameRest⟩ :=
    second other.2 isGood.2 otherGood.2 _ _ _ _ laterMarks later
  exact ⟨Prod.ext sameFirst sameSecond, sameMarks, sameRest⟩

section

variable {values : List α} (framed : ∀ value ∈ values, FramedAt good layout stream value)

include framed

theorem FramedAt.flatMap :
    ∀ others : List α, values.length = others.length → (∀ value ∈ values, good value) →
      (∀ value ∈ others, good value) → ∀ marks marks' rest rest',
      values.flatMap layout ++ marks = others.flatMap layout ++ marks' →
      values.flatMap stream ++ rest = others.flatMap stream ++ rest' →
        values = others ∧ marks = marks' ∧ rest = rest' := by
  induction values with
  | nil =>
    intro others sameLength _ _ marks marks' rest rest' sameMarks same
    have isNil : others = [] := length_eq_zero_iff.mp sameLength.symm
    subst isNil
    exact ⟨rfl, sameMarks, same⟩
  | cons head tail ih =>
    intro others sameLength isGood othersGood marks marks' rest rest' sameMarks same
    match others, sameLength, othersGood with
    | other :: later, sameLength, othersGood =>
      rw [flatMap_cons, flatMap_cons, append_assoc, append_assoc]
        at sameMarks same
      obtain ⟨sameHead, tailMarks, tailRest⟩ :=
        framed head mem_cons_self other (isGood head mem_cons_self)
          (othersGood other mem_cons_self) _ _ _ _ sameMarks same
      obtain ⟨sameTail, sameMarks, sameRest⟩ :=
        ih (fun value member => framed value (mem_cons_of_mem _ member)) later
          (Nat.succ.inj sameLength) (fun value member => isGood value (mem_cons_of_mem _ member))
          (fun value member => othersGood value (mem_cons_of_mem _ member))
          _ _ _ _ tailMarks tailRest
      exact ⟨by rw [sameHead, sameTail], sameMarks, sameRest⟩

theorem FramedAt.list : FramedAt (fun values => ∀ value ∈ values, good value)
      (fun values => values.length :: values.flatMap layout) (List.flatMap stream) values := by
  intro others isGood othersGood marks marks' rest rest' sameMarks same
  obtain ⟨sameLength, sameMarks⟩ := List.cons.inj sameMarks
  exact FramedAt.flatMap framed others sameLength isGood othersGood _ _ _ _ sameMarks same

end

theorem FramedAt.option {value : Option α}
    (framed : ∀ present, value = some present → FramedAt good layout stream present) :
    FramedAt (fun value => ∀ present, value = some present → good present)
      (fun value => value.elim [0] fun present => 1 :: layout present)
      (fun value => value.elim [] stream) value := by
  intro other isGood otherGood marks marks' rest rest' sameMarks same
  match value, other with
  | none, none => exact ⟨rfl, (List.cons.inj sameMarks).2, same⟩
  | none, some _ => cases (List.cons.inj sameMarks).1
  | some _, none => cases (List.cons.inj sameMarks).1
  | some present, some _ =>
    obtain ⟨samePresent, sameMarks, sameRest⟩ := framed present rfl _ (isGood present rfl)
      (otherGood _ rfl) _ _ _ _ (List.cons.inj sameMarks).2 same
    exact ⟨congrArg some samePresent, sameMarks, sameRest⟩

/-- The digest of a stream stands for the value if the function has no collisions. -/
theorem FramedAt.digest {digest : Bytes → Bytes} (collisionFree : Function.Injective digest)
    {value : α} (framed : FramedAt good layout stream value) :
    FramedAt good (fun value => (digest (stream value)).length :: layout value)
      (fun value => digest (stream value)) value := by
  intro other isGood otherGood marks marks' rest rest' sameMarks same
  obtain ⟨lengths, sameMarks⟩ := List.cons.inj sameMarks
  obtain ⟨sameDigest, sameRest⟩ := append_inj same lengths
  obtain ⟨sameValue, sameMarks, _⟩ := framed other isGood otherGood marks marks' [] [] sameMarks
    (by rw [collisionFree sameDigest])
  exact ⟨sameValue, sameMarks, sameRest⟩

/-- A value of one of several kinds, if the layout names the kind; its stream may begin with a mark.
-/
theorem FramedAt.tagged {good' : β → Prop} {layout' : β → List Nat} {stream' : β → Bytes}
    {value : β} (framed : FramedAt good' layout' stream' value) (kind : β → α) (tag : Nat)
    (mark : Bytes) (fits : ∀ value, good (kind value) → good' value)
    (laid : ∀ value, layout (kind value) = tag :: layout' value)
    (written : ∀ value, stream (kind value) = mark ++ stream' value)
    (only : ∀ other, (∃ value, kind value = other) ∨ ∃ head tail, layout other = head :: tail ∧
      head ≠ tag) : FramedAt good layout stream (kind value) := by
  intro other isGood otherGood marks marks' rest rest' sameMarks same
  rw [laid] at sameMarks
  rcases only other with ⟨otherValue, rfl⟩ | ⟨head, tail, isLaid, isOther⟩
  · rw [laid] at sameMarks
    rw [written, written, append_assoc, append_assoc, append_cancel_left_eq] at same
    obtain ⟨sameValue, later⟩ := framed otherValue (fits _ isGood) (fits _ otherGood) marks marks'
      rest rest' (List.cons.inj sameMarks).2 same
    exact ⟨congrArg kind sameValue, later⟩
  · rw [isLaid] at sameMarks
    exact absurd (List.cons.inj sameMarks).1.symm isOther

/-- Streams of one width need no layout: their number follows from the length. -/
theorem flatMap_width_inj {width : Nat} (positive : 0 < width)
    (length : ∀ value, (stream value).length = width) {left right : List α}
    (inj : ∀ a ∈ left, ∀ b ∈ right, stream a = stream b → a = b)
    (same : left.flatMap stream = right.flatMap stream) : left = right := by
  induction left generalizing right with
  | nil =>
    cases right with
    | nil => rfl
    | cons head tail =>
      have lengths := congrArg List.length same
      rw [flatMap_cons, length_append, length, flatMap_nil, length_nil] at lengths
      omega
  | cons head tail ih =>
    cases right with
    | nil =>
      have lengths := congrArg List.length same
      rw [flatMap_cons, length_append, length, flatMap_nil, length_nil] at lengths
      omega
    | cons head' tail' =>
      rw [flatMap_cons, flatMap_cons] at same
      obtain ⟨sameHead, sameTail⟩ := append_inj same (by rw [length, length])
      have heads := inj head mem_cons_self head' mem_cons_self sameHead
      have tails := ih (fun a inTail b inTail' =>
        inj a (mem_cons_of_mem _ inTail) b (mem_cons_of_mem _ inTail')) sameTail
      rw [heads, tails]

end Streams

end Abcperf.Lib
