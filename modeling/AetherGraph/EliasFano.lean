import AetherGraph.ByteReader
import AetherGraph.Foundation.BitFields
import AetherGraph.Foundation.FoldM

/-! Elias-Fano sequences: the high parts as a unary bit vector, the low parts packed beside it.
An index past the end, an underflow or a shift past the word is a panic, written `none`. -/

namespace AetherGraph

open Foundation

structure EliasFano where
  len : Nat
  lowBits : Nat
  low : List U64
  high : List U64
  /-- The largest value stored. -/
  universeValue : U64
  deriving DecidableEq, Repr

def checkedShl (x : U64) (k : Nat) : Option U64 := if k < 64 then some (x <<< k) else none

def checkedSub (a b : Nat) : Option Nat := if b ≤ a then some (a - b) else none

structure BitWriter where
  words : List U64
  bitLen : Nat
  deriving DecidableEq, Repr

namespace BitWriter

def new : BitWriter := ⟨[], 0⟩

def pushBits (b : BitWriter) (value : U64) (bits : Nat) : Option BitWriter :=
  if bits = 0 then some b
  else
    let word := b.bitLen / 64
    let off := b.bitLen % 64
    let words := if b.words.length ≤ word then b.words ++ [0] else b.words
    (orWord words word (value <<< off)).map fun words =>
      -- spilled into the next word
      ⟨if 64 < off + bits then words ++ [value >>> (64 - off)] else words, b.bitLen + bits⟩

/-- As many words as the bits written need. -/
def Sized (b : BitWriter) : Prop := b.words.length = (b.bitLen + 63) / 64

theorem pushBits_spec {b : BitWriter} (sized : b.Sized) {value : U64} {bits : Nat}
    (width : bits ≤ 64) (fits : ∀ j, bits ≤ j → value.getLsbD j = false) :
    ∃ b', b.pushBits value bits = some b' ∧ b'.bitLen = b.bitLen + bits ∧ b'.Sized ∧
      ∀ p, bitAt b'.words p =
        (bitAt b.words p || (decide (b.bitLen ≤ p) && value.getLsbD (p - b.bitLen))) := by
  rcases Nat.eq_zero_or_pos bits with rfl | positive
  · refine ⟨b, if_pos rfl, rfl, sized, fun p => ?_⟩
    rw [fits _ (Nat.zero_le _), Bool.and_false, Bool.or_false]
  unfold Sized at sized
  have split := Nat.div_add_mod b.bitLen 64
  have inside := Nat.mod_lt b.bitLen (show 0 < 64 by omega)
  have grown : ∃ words, (if b.words.length ≤ b.bitLen / 64 then b.words ++ [0] else b.words) =
      words ∧ words.length = b.bitLen / 64 + 1 ∧ ∀ p, bitAt words p = bitAt b.words p := by
    by_cases full : b.words.length ≤ b.bitLen / 64
    · refine ⟨_, if_pos full, ?_, fun p => ?_⟩
      · rw [List.length_append, List.length_singleton]
        omega
      · rw [bitAt_append]
        simp
    · exact ⟨_, if_neg full, by omega, fun p => rfl⟩
  obtain ⟨words, same, length, bits₁⟩ := grown
  have first : b.bitLen / 64 < words.length := by omega
  obtain ⟨words₂, ored, length₂⟩ := orWord_some first (value <<< (b.bitLen % 64))
  refine ⟨⟨if 64 < b.bitLen % 64 + bits then words₂ ++ [value >>> (64 - b.bitLen % 64)]
    else words₂, b.bitLen + bits⟩, ?_, rfl, ?_, fun p => ?_⟩
  · rw [pushBits, if_neg (Nat.ne_of_gt positive)]
    simp only [same, ored, Option.map_some]
  · unfold Sized
    dsimp only
    split
    · rw [List.length_append, List.length_singleton]
      omega
    · omega
  · have pSplit := Nat.div_add_mod p 64
    have pInside := Nat.mod_lt p (show 0 < 64 by omega)
    have far : ∀ j, 64 ≤ j → value.getLsbD j = false := fun j hj => BitVec.getLsbD_of_ge _ _ hj
    have head : bitAt words₂ p = (bitAt b.words p || (decide (p / 64 = b.bitLen / 64) &&
        (!decide (p % 64 < b.bitLen % 64) && value.getLsbD (p % 64 - b.bitLen % 64)))) := by
      rw [bitAt_orWord ored, bits₁, BitVec.getLsbD_shiftLeft, decide_eq_true pInside,
        Bool.true_and]
    -- the word after the first takes what spills
    have tail : bitAt (if 64 < b.bitLen % 64 + bits then words₂ ++ [value >>> (64 - b.bitLen % 64)]
        else words₂) p = (bitAt words₂ p || (decide (p / 64 = b.bitLen / 64 + 1) &&
          value.getLsbD (64 - b.bitLen % 64 + p % 64))) := by
      split
      · rw [bitAt_append, length₂, length, BitVec.getLsbD_ushiftRight]
      · rw [fits (64 - b.bitLen % 64 + p % 64) (by omega), Bool.and_false, Bool.or_false]
    dsimp only
    rw [tail, head, Bool.or_assoc]
    congr 1
    rcases Nat.lt_trichotomy (p / 64) (b.bitLen / 64) with before | here | after
    · have : ¬ b.bitLen ≤ p := by omega
      simp [this, Nat.ne_of_lt before, show p / 64 ≠ b.bitLen / 64 + 1 by omega]
    · by_cases below : p % 64 < b.bitLen % 64
      · have : ¬ b.bitLen ≤ p := by omega
        simp [this, here, below]
      · have : b.bitLen ≤ p := by omega
        have shift : p - b.bitLen = p % 64 - b.bitLen % 64 := by omega
        simp [this, here, below, shift]
    · have : b.bitLen ≤ p := by omega
      by_cases next : p / 64 = b.bitLen / 64 + 1
      · have shift : p - b.bitLen = 64 - b.bitLen % 64 + p % 64 := by omega
        simp [this, next, shift]
      · rw [far (p - b.bitLen) (by omega)]
        simp [next, Nat.ne_of_gt after]

end BitWriter

namespace EliasFano

def lowMask (lowBits : Nat) : Option U64 :=
  if lowBits = 64 then some (BitVec.allOnes 64)
  else (checkedShl 1 lowBits).map (· - 1)

def readLow (ef : EliasFano) (i : Nat) : Option U64 := do
  let bit := i * ef.lowBits
  let word := bit / 64
  let off := bit % 64
  let mask ← lowMask ef.lowBits
  if off + ef.lowBits ≤ 64 then
    let here ← ef.low[word]?
    some (here >>> off &&& mask)
  else
    -- spans two words
    let here ← ef.low[word]?
    let next ← ef.low[word + 1]?
    let high ← checkedShl next (64 - off)
    some ((here >>> off ||| high) &&& mask)

def lowPart (ef : EliasFano) (i : Nat) : Option U64 :=
  if ef.lowBits = 0 then some 0 else ef.readLow i

/-- Element `i`, whose set bit stands at `setPos`. -/
def valueAt (ef : EliasFano) (setPos i : Nat) : Option U64 := do
  let highPart ← checkedSub setPos i
  let lowPart ← ef.lowPart i
  let shifted ← checkedShl (BitVec.ofNat 64 highPart) ef.lowBits
  some (shifted ||| lowPart)

/-- `get`: a panic is the outer `none`. -/
def get (ef : EliasFano) (i : Nat) : Option (Option U64) :=
  if ef.len ≤ i then some none
  else do
    -- a rank past the stored ones is unreachable
    let setPos ← selectFrom 0 ef.high i
    (ef.valueAt setPos i).map some

section

variable {σ : Type} (visit : σ → Nat → U64 → Option σ)

/-- The body of `for_each` from element `i` on, over the set positions still to come. -/
def forEachFrom (ef : EliasFano) : List Nat → Nat → σ → Option σ
  | [], _, s => some s
  | setPos :: rest, i, s => do
      let value ← ef.valueAt setPos i
      let s ← visit s i value
      if i + 1 = ef.len then some s else ef.forEachFrom rest (i + 1) s

def forEach (ef : EliasFano) (s : σ) : Option σ :=
  if ef.len = 0 then some s else ef.forEachFrom visit (scanOnes ef.high) 0 s

end

/-- `out[i] = v`. -/
def store (out : List U64) (i : Nat) (v : U64) : Option (List U64) :=
  if i < out.length then some (out.set i v) else none

def decodeInto (ef : EliasFano) (out : List U64) : Option (List U64) :=
  if out.length = ef.len then ef.forEach store out else none

def toVec (ef : EliasFano) : Option (List U64) := ef.decodeInto (List.replicate ef.len 0)

/-- The elements the two streams stand for. -/
def elements (ef : EliasFano) : List U64 :=
  (scanOnes ef.high).zipIdx.map fun entry => (ef.valueAt entry.1 entry.2).getD 0

/-- What the decoders rely on. -/
structure Shaped (ef : EliasFano) : Prop where
  lowBits_lt : ef.lowBits < 64
  low_covers : ef.len * ef.lowBits ≤ 64 * ef.low.length
  ones : (scanOnes ef.high).length = ef.len

section Decode

variable {ef : EliasFano}

theorem lowMask_lt {lowBits : Nat} (h : lowBits < 64) :
    lowMask lowBits = some ((1#64 <<< lowBits) - 1) := by
  rw [lowMask, if_neg (Nat.ne_of_lt h), checkedShl, if_pos h]
  rfl

theorem getLsbD_mask {lowBits : Nat} (h : lowBits < 64) (j : Nat) :
    ((1#64 <<< lowBits) - 1).getLsbD j = decide (j < lowBits) := by
  have small : (2 : Nat) ^ lowBits < 2 ^ 64 := Nat.pow_lt_pow_right (by omega) h
  have positive : 0 < 2 ^ lowBits := Nat.two_pow_pos lowBits
  have value : ((1#64 <<< lowBits) - 1).toNat = 2 ^ lowBits - 1 := by
    have shifted : (1#64 <<< lowBits).toNat = 2 ^ lowBits := by
      rw [BitVec.toNat_shiftLeft, Nat.shiftLeft_eq]
      simpa using Nat.mod_eq_of_lt small
    rw [BitVec.toNat_sub, shifted]
    show (2 ^ 64 - 1 + 2 ^ lowBits) % 2 ^ 64 = 2 ^ lowBits - 1
    rw [show 2 ^ 64 - 1 + 2 ^ lowBits = 2 ^ lowBits - 1 + 2 ^ 64 by omega, Nat.add_mod_right,
      Nat.mod_eq_of_lt (by omega)]
  show (((1#64 <<< lowBits) - 1).toNat).testBit j = _
  rw [value, Nat.testBit_two_pow_sub_one]

theorem getD_eq_of_getElem? {words : List U64} {k : Nat} (h : k < words.length) :
    words[k]? = some (words.getD k 0) := by
  rw [List.getD_eq_getElem?_getD, List.getElem?_eq_getElem h]
  rfl

/-- The low part of an element is its field of the packed low array. -/
theorem readLow_spec (shaped : ef.Shaped) {i : Nat} (hi : i < ef.len) (positive : 0 < ef.lowBits) :
    ∃ x, ef.readLow i = some x ∧ FieldAt ef.low (i * ef.lowBits) ef.lowBits x := by
  have width := shaped.lowBits_lt
  have last : i * ef.lowBits + ef.lowBits ≤ 64 * ef.low.length := by
    have := Nat.mul_le_mul_right ef.lowBits (Nat.succ_le_of_lt hi)
    rw [Nat.succ_mul] at this
    exact Nat.le_trans this shaped.low_covers
  have split := Nat.div_add_mod (i * ef.lowBits) 64
  have inside := Nat.mod_lt (i * ef.lowBits) (show 0 < 64 by omega)
  have here : i * ef.lowBits / 64 < ef.low.length := by omega
  simp only [readLow, lowMask_lt width, Option.bind_eq_bind, Option.bind_some,
    getD_eq_of_getElem? here]
  by_cases one : i * ef.lowBits % 64 + ef.lowBits ≤ 64
  · rw [if_pos one]
    refine ⟨_, rfl, fun j => ?_⟩
    rw [BitVec.getLsbD_and, BitVec.getLsbD_ushiftRight, getLsbD_mask width]
    by_cases low : j < ef.lowBits
    · rw [bitAt_add _ _ (by omega), if_pos (by omega), Bool.and_comm]
    · simp [low]
  · have next : i * ef.lowBits / 64 + 1 < ef.low.length := by omega
    have shift : checkedShl (ef.low.getD (i * ef.lowBits / 64 + 1) 0)
        (64 - i * ef.lowBits % 64) = some (ef.low.getD (i * ef.lowBits / 64 + 1) 0 <<<
          (64 - i * ef.lowBits % 64)) := if_pos (by omega)
    rw [if_neg one]
    simp only [getD_eq_of_getElem? next, Option.bind_some, shift]
    refine ⟨_, rfl, fun j => ?_⟩
    rw [BitVec.getLsbD_and, BitVec.getLsbD_or, BitVec.getLsbD_ushiftRight,
      BitVec.getLsbD_shiftLeft, getLsbD_mask width]
    by_cases low : j < ef.lowBits
    · rw [bitAt_add _ _ (by omega)]
      by_cases same : i * ef.lowBits % 64 + j < 64
      · simp [same, low, show j < 64 - i * ef.lowBits % 64 by omega]
      · have far := BitVec.getLsbD_of_ge (ef.low.getD (i * ef.lowBits / 64) 0)
          (i * ef.lowBits % 64 + j) (Nat.le_of_not_lt same)
        have back : j - (64 - i * ef.lowBits % 64) = i * ef.lowBits % 64 + j - 64 := by omega
        rw [far, Bool.false_or, back, if_neg same]
        simp [low, show ¬ j < 64 - i * ef.lowBits % 64 by omega, show j < 64 by omega]
    · simp [low]

theorem fieldAt_zero {words : List U64} {start : Nat} : FieldAt words start 0 0 := fun j => by
  simp

theorem lowPart_spec (shaped : ef.Shaped) {i : Nat} (hi : i < ef.len) :
    ∃ x, ef.lowPart i = some x ∧ FieldAt ef.low (i * ef.lowBits) ef.lowBits x := by
  rw [lowPart]
  split
  · rename_i none
    rw [none]
    exact ⟨0, rfl, fieldAt_zero⟩
  · rename_i some_
    exact readLow_spec shaped hi (Nat.pos_of_ne_zero some_)

/-- The value of an element is its high part above its low field. -/
theorem valueAt_spec (shaped : ef.Shaped) {i setPos : Nat} (hi : i < ef.len) (le : i ≤ setPos) :
    ∃ x, FieldAt ef.low (i * ef.lowBits) ef.lowBits x ∧
      ef.valueAt setPos i = some (BitVec.ofNat 64 (setPos - i) <<< ef.lowBits ||| x) := by
  obtain ⟨x, read, field⟩ := lowPart_spec shaped hi
  have high : checkedShl (BitVec.ofNat 64 (setPos - i)) ef.lowBits =
      some (BitVec.ofNat 64 (setPos - i) <<< ef.lowBits) := if_pos shaped.lowBits_lt
  refine ⟨x, field, ?_⟩
  rw [valueAt, checkedSub, if_pos le, read]
  simp only [Option.bind_eq_bind, Option.bind_some, high]

theorem elements_length (shaped : ef.Shaped) : ef.elements.length = ef.len := by
  rw [elements, List.length_map, List.length_zipIdx, shaped.ones]

/-- Each element can be decoded at its set position. -/
theorem elements_getElem? (shaped : ef.Shaped) {i setPos : Nat}
    (at_ : (scanOnes ef.high)[i]? = some setPos) : ef.valueAt setPos i = ef.elements[i]? := by
  obtain ⟨inside, -⟩ := List.getElem?_eq_some_iff.mp at_
  have le := le_of_ascending (scanOnes_sorted _) at_
  obtain ⟨lowPart, -, value⟩ := valueAt_spec shaped (shaped.ones ▸ inside) le
  rw [elements, List.getElem?_map, List.getElem?_zipIdx, at_, Option.map_some, Option.map_some,
    Nat.zero_add, value]
  rfl

theorem get_eq (shaped : ef.Shaped) (i : Nat) : ef.get i = some ef.elements[i]? := by
  rw [get]
  split
  · rename_i past
    rw [List.getElem?_eq_none (by rwa [elements_length shaped])]
  · rename_i inside
    have hi : i < (scanOnes ef.high).length := by
      rw [shaped.ones]
      exact Nat.lt_of_not_le inside
    have at_ := List.getElem?_eq_getElem hi
    have he : i < ef.elements.length := by
      rw [elements_length shaped]
      exact Nat.lt_of_not_le inside
    rw [selectFrom_eq, at_, Option.map_some, Nat.zero_mul, Nat.zero_add]
    show (ef.valueAt _ i).map some = _
    rw [elements_getElem? shaped at_, List.getElem?_eq_getElem he]
    rfl

section

variable {σ : Type} {visit : σ → Nat → U64 → Option σ}

/-- The loop visits the elements still to come in order, each with its index. -/
theorem forEachFrom_eq (shaped : ef.Shaped) (rest : List Nat) (i : Nat) (s : σ)
    (suffix : (scanOnes ef.high).drop i = rest) (nonempty : rest ≠ []) :
    ef.forEachFrom visit rest i s =
      ((ef.elements.zipIdx).drop i).foldlM (fun s entry => visit s entry.2 entry.1) s := by
  induction rest generalizing i s with
  | nil => exact absurd rfl nonempty
  | cons setPos rest ih =>
      have at_ : (scanOnes ef.high)[i]? = some setPos := by
        rw [← List.head?_drop, suffix]
        rfl
      have next : (scanOnes ef.high).drop (i + 1) = rest := by
        rw [← List.tail_drop, suffix]
        rfl
      have value := elements_getElem? shaped at_
      obtain ⟨hi, -⟩ := List.getElem?_eq_some_iff.mp at_
      have he : i < ef.elements.length := by
        rw [elements_length shaped, ← shaped.ones]
        exact hi
      have hz : i < ef.elements.zipIdx.length := by rwa [List.length_zipIdx]
      rw [List.getElem?_eq_getElem he] at value
      rw [List.drop_eq_getElem_cons hz, List.foldlM_cons, List.getElem_zipIdx, Nat.zero_add,
        forEachFrom, value]
      show (visit s i ef.elements[i] >>= _) = (visit s i ef.elements[i] >>= _)
      congr 1
      funext s'
      split
      · rename_i done
        rw [List.drop_eq_nil_of_le (by rw [List.length_zipIdx, elements_length shaped, done])]
        rfl
      · rename_i more
        refine ih (i + 1) s' next fun last => more ?_
        rw [last, List.drop_eq_nil_iff, shaped.ones] at next
        have := elements_length shaped
        omega

theorem forEach_eq (shaped : ef.Shaped) (s : σ) :
    ef.forEach visit s =
      ef.elements.zipIdx.foldlM (fun s entry => visit s entry.2 entry.1) s := by
  have length := elements_length shaped
  rw [forEach]
  split
  · rename_i empty
    rw [empty, List.length_eq_zero_iff] at length
    rw [length]
    rfl
  · rename_i some_
    refine forEachFrom_eq shaped _ 0 s rfl fun none => some_ ?_
    rw [← shaped.ones, none]
    rfl

end

/-- Storing a list from an index on fills the buffer with it. -/
theorem foldlM_store (vs : List U64) (done rest : List U64) (room : vs.length = rest.length) :
    (vs.zipIdx done.length).foldlM (fun out entry => store out entry.2 entry.1) (done ++ rest) =
      some (done ++ vs) := by
  induction vs generalizing done rest with
  | nil =>
      obtain rfl : rest = [] := List.length_eq_zero_iff.mp room.symm
      rfl
  | cons v vs ih =>
      match rest, room with
      | zero :: rest, room =>
          have inside : done.length < (done ++ zero :: rest).length := by
            rw [List.length_append, List.length_cons]
            omega
          rw [List.zipIdx_cons, List.foldlM_cons]
          show store _ done.length v >>= _ = _
          rw [store, if_pos inside, List.set_append_right _ _ (Nat.le_refl _), Nat.sub_self,
            List.set_cons_zero]
          have step := ih (done ++ [v]) rest (Nat.succ.inj room)
          rw [List.length_append, List.length_singleton, List.append_assoc, List.append_assoc]
            at step
          exact step

theorem decodeInto_eq (shaped : ef.Shaped) {out : List U64} (length : out.length = ef.len) :
    ef.decodeInto out = some ef.elements := by
  rw [decodeInto, if_pos length, forEach_eq shaped]
  exact foldlM_store ef.elements [] out ((elements_length shaped).trans length.symm)

theorem toVec_eq (shaped : ef.Shaped) : ef.toVec = some ef.elements :=
  decodeInto_eq shaped List.length_replicate

end Decode

end EliasFano

end AetherGraph
