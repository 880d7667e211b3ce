import AetherGraph.Foundation.FoldM

/-! Pieces of one text written into a buffer at their own places, in any order and however they
overlap. -/

namespace Foundation

variable {α : Type}

/-- `bytes` in place of what stands at `dest`. -/
def writeAt (out : List α) (dest : Nat) (bytes : List α) : List α :=
  out.take dest ++ bytes ++ out.drop (dest + bytes.length)

theorem writeAt_length {out bytes : List α} {dest : Nat}
    (room : dest + bytes.length ≤ out.length) : (writeAt out dest bytes).length = out.length := by
  rw [writeAt, List.length_append, List.length_append, List.length_take, List.length_drop]
  omega

/-- The front grows by a piece written right behind it. -/
theorem writeAt_take {out : List α} (bytes : List α) {dest : Nat} (room : dest ≤ out.length) :
    (writeAt out dest bytes).take (dest + bytes.length) = out.take dest ++ bytes := by
  rw [writeAt]
  refine List.take_left' ?_
  rw [List.length_append, List.length_take, Nat.min_eq_left room]

theorem writeAt_inside {out bytes : List α} {dest i : Nat}
    (room : dest + bytes.length ≤ out.length) (inside : i < bytes.length) :
    (writeAt out dest bytes)[dest + i]? = bytes[i]? := by
  have before : (out.take dest).length = dest := by
    rw [List.length_take]
    omega
  rw [writeAt, List.append_assoc, List.getElem?_append_right (by omega), before,
    Nat.add_sub_cancel_left, List.getElem?_append_left inside]

theorem writeAt_outside {out bytes : List α} {dest p : Nat}
    (room : dest + bytes.length ≤ out.length) (outside : p < dest ∨ dest + bytes.length ≤ p) :
    (writeAt out dest bytes)[p]? = out[p]? := by
  have before : (out.take dest).length = dest := by
    rw [List.length_take]
    omega
  rw [writeAt, List.append_assoc]
  rcases outside with early | late
  · rw [List.getElem?_append_left (by omega), List.getElem?_take_of_lt early]
  · rw [List.getElem?_append_right (by omega), List.getElem?_append_right (by omega), before,
      List.getElem?_drop]
    congr 1
    omega

/-- A place that holds the text's value keeps it under a piece of the text. -/
theorem writeAt_agrees {out bytes text : List α} {dest p : Nat}
    (piece : (text.drop dest).take bytes.length = bytes)
    (room : dest + bytes.length ≤ out.length)
    (holds : out[p]? = text[p]? ∨ dest ≤ p ∧ p < dest + bytes.length) :
    (writeAt out dest bytes)[p]? = text[p]? := by
  by_cases inside : dest ≤ p ∧ p < dest + bytes.length
  · obtain ⟨i, rfl⟩ := Nat.exists_eq_add_of_le inside.1
    have within : i < bytes.length := by omega
    have value : ((text.drop dest).take bytes.length)[i]? = bytes[i]? := by rw [piece]
    rw [writeAt_inside room within, ← value, List.getElem?_take_of_lt within, List.getElem?_drop]
  · rw [writeAt_outside room (by omega)]
    exact holds.resolve_right inside

section Pieces

variable {text : List α} {writes : List (Nat × List α)}

theorem foldl_writeAt_agrees {out : List α} {p : Nat}
    (pieces : ∀ w ∈ writes, (text.drop w.1).take w.2.length = w.2)
    (room : ∀ w ∈ writes, w.1 + w.2.length ≤ out.length)
    (holds : out[p]? = text[p]? ∨ ∃ w ∈ writes, w.1 ≤ p ∧ p < w.1 + w.2.length) :
    (writes.foldl (fun out w => writeAt out w.1 w.2) out)[p]? = text[p]? := by
  induction writes generalizing out with
  | nil => exact holds.elim id fun ⟨w, mem, _⟩ => absurd mem List.not_mem_nil
  | cons w writes ih =>
      obtain ⟨piece, pieces⟩ := List.forall_mem_cons.mp pieces
      obtain ⟨here, room⟩ := List.forall_mem_cons.mp room
      rw [List.foldl_cons]
      refine ih pieces (fun v mem => ?_) ?_
      · rw [writeAt_length here]
        exact room v mem
      · rcases holds with already | ⟨v, mem, inside⟩
        · exact .inl (writeAt_agrees piece here (.inl already))
        · rcases List.mem_cons.mp mem with rfl | later
          · exact .inl (writeAt_agrees piece here (.inr inside))
          · exact .inr ⟨v, later, inside⟩

/-- Pieces that cover the text leave the text. -/
theorem foldl_writeAt_covering {out : List α}
    (pieces : ∀ w ∈ writes, (text.drop w.1).take w.2.length = w.2)
    (room : ∀ w ∈ writes, w.1 + w.2.length ≤ out.length)
    (covered : ∀ p < text.length, ∃ w ∈ writes, w.1 ≤ p ∧ p < w.1 + w.2.length) :
    (writes.foldl (fun out w => writeAt out w.1 w.2) out).take text.length = text := by
  refine List.ext_getElem? fun p => ?_
  rcases Nat.lt_or_ge p text.length with inside | outside
  · rw [List.getElem?_take_of_lt inside]
    exact foldl_writeAt_agrees pieces room (.inr (covered p inside))
  · rw [List.getElem?_eq_none outside, List.getElem?_eq_none]
    rw [List.length_take]
    omega

end Pieces

/-- Equally long pieces, each in its own place, fill the buffer in order. -/
theorem foldlM_writeAt_slots {β : Type} {f : List α → β × Nat → Option (List α)}
    (piece : β → List α) (k : Nat) {items : List β}
    (each : ∀ item ∈ items, (piece item).length = k)
    (writes : ∀ n item out, items[n]? = some item → out.length = items.length * k →
      f out (item, n) = some (writeAt out (n * k) (piece item)))
    {out : List α} (room : out.length = items.length * k) :
    items.zipIdx.foldlM f out = some (items.flatMap piece) := by
  have step : ∀ n item out, items[n]? = some item →
      (out.length = items.length * k ∧ out.take (n * k) = (items.take n).flatMap piece) →
      ∃ out', f out (item, n) = some out' ∧ out'.length = items.length * k ∧
        out'.take ((n + 1) * k) = (items.take (n + 1)).flatMap piece := by
    intro n item out at_ ⟨length, front⟩
    obtain ⟨inside, -⟩ := List.getElem?_eq_some_iff.mp at_
    have long := each item (List.mem_of_getElem? at_)
    have fits : n * k + k ≤ out.length := by
      rw [length, ← Nat.succ_mul]
      exact Nat.mul_le_mul_right k inside
    refine ⟨_, writes n item out at_ length, ?_, ?_⟩
    · rw [writeAt_length (by rwa [long]), length]
    · have grown := writeAt_take (piece item) (Nat.le_of_add_right_le fits)
      rw [long, ← Nat.succ_mul] at grown
      rw [grown, front, List.take_add_one, at_, Option.toList_some, List.flatMap_append,
        List.flatMap_singleton]
  obtain ⟨out', ran, length, front⟩ := foldlM_zipIdx (f := f) step
    (b := out) ⟨room, by rw [Nat.zero_mul]; rfl⟩
  rw [List.take_of_length_le (Nat.le_of_eq length), List.take_length] at front
  rw [ran, front]

end Foundation
