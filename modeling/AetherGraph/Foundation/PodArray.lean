import AetherGraph.Foundation.ByteFormat

/-! Arrays of fixed-width values as bytes, and the sections of a file that hold them. -/

namespace Foundation

variable {α β : Type}

/-- The items of a half-open range. -/
def byteRange (xs : List β) (r : Nat × Nat) : List β := (xs.drop r.1).take (r.2 - r.1)

theorem byteRange_middle (before mid after : List β) :
    byteRange (before ++ (mid ++ after)) (before.length, before.length + mid.length) = mid := by
  rw [byteRange, List.drop_left, Nat.add_sub_cancel_left, List.take_left]

/-- The section that starts where the bytes before it end. -/
theorem byteRange_at {before mid after : List β} {start stop : Nat} (starts : before.length = start)
    (stops : start + mid.length = stop) :
    byteRange (before ++ (mid ++ after)) (start, stop) = mid := by
  subst starts stops
  exact byteRange_middle before mid after

/-- A piece of a record behind the pieces before it. -/
theorem byteRange_piece {pieces : List (List β)} {i start stop : Nat} {piece : List β}
    (at_ : pieces[i]? = some piece) (starts : (pieces.take i).flatten.length = start)
    (stops : start + piece.length = stop) : byteRange pieces.flatten (start, stop) = piece := by
  have here := take_drop_pieces id at_
  rw [List.flatMap_id, List.flatMap_id] at here
  subst starts stops
  rw [byteRange, Nat.add_sub_cancel_left]
  exact here

/-- A type whose values all take the same number of bytes. -/
structure Pod (α : Type) where
  size : Nat
  enc : α → List Byte
  dec : List Byte → α
  size_pos : 0 < size
  enc_length : ∀ a, (enc a).length = size

namespace Pod

variable (pod : Pod α)

/-- The bytes of an array. -/
def castSlice (xs : List α) : List Byte := xs.flatMap pod.enc

/-- The whole values in the bytes. -/
def typedSlice (bytes : List Byte) : List α := (chunksExact pod.size bytes).map pod.dec

/-- The values that their bytes determine. -/
def Stores (a : α) : Prop := pod.dec (pod.enc a) = a

variable {pod}

theorem castSlice_length (xs : List α) : (pod.castSlice xs).length = xs.length * pod.size :=
  flatMap_length fun a _ => pod.enc_length a

theorem typedSlice_castSlice {xs : List α} (stores : ∀ a ∈ xs, pod.Stores a) :
    pod.typedSlice (pod.castSlice xs) = xs := by
  rw [typedSlice, castSlice, chunksExact_flatMap pod.size_pos fun a _ => pod.enc_length a,
    List.map_map]
  conv_rhs => rw [← List.map_id xs]
  exact List.map_congr_left stores

/-- The array stands at the byte range of a file. -/
structure At (pod : Pod α) (bytes : List Byte) (range : Nat × Nat) (xs : List α) : Prop where
  inside : range.2 ≤ bytes.length
  stop : range.2 = range.1 + xs.length * pod.size
  content : byteRange bytes range = pod.castSlice xs

theorem At.width {bytes : List Byte} {range : Nat × Nat} {xs : List α}
    (h : pod.At bytes range xs) : range.2 - range.1 = xs.length * pod.size := by
  rw [h.stop, Nat.add_sub_cancel_left]

theorem At.typed {bytes : List Byte} {range : Nat × Nat} {xs : List α}
    (h : pod.At bytes range xs) (stores : ∀ a ∈ xs, pod.Stores a) :
    pod.typedSlice (byteRange bytes range) = xs := by
  rw [h.content, typedSlice_castSlice stores]

theorem at_middle (pod : Pod α) {before : List Byte} {start : Nat} (xs : List α)
    (after : List Byte) (starts : before.length = start) :
    pod.At (before ++ (pod.castSlice xs ++ after)) (start, start + xs.length * pod.size) xs where
  inside := by
    rw [List.length_append, List.length_append, castSlice_length]
    omega
  stop := rfl
  content := byteRange_at starts (by rw [castSlice_length])

end Pod

end Foundation
