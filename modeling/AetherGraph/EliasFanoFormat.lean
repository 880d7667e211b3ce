import AetherGraph.EliasFanoEncode

/-! The Elias-Fano wire format: what the parser checks, that every encoded sequence passes, and
the round trip through the codec and its bytes. -/

namespace AetherGraph

open Foundation

namespace EliasFano

def writeInto (ef : EliasFano) : List U8 :=
  lengthBytes ef.len ++ (u64Bytes ef.universeValue ++ (u32Bytes (BitVec.ofNat 32 ef.lowBits) ++
    ((lengthBytes ef.low.length ++ ef.low.flatMap u64Bytes) ++
      (lengthBytes ef.high.length ++ ef.high.flatMap u64Bytes))))

/-- The ordering pass from element `i` on: the parts of the last element. -/
def checkOrder (ef : EliasFano) : List Nat → Nat → Option (U64 × U64) →
    Except Failure (Option (U64 × U64))
  | [], _, prev => .ok prev
  | setPos :: rest, i, prev =>
      match checkedSub setPos i, ef.lowPart i with
      | some high, some lowPart =>
          let highPart := BitVec.ofNat 64 high
          if ef.universeValue >>> ef.lowBits < highPart then
            .error (.error [s!"EF element {i} exceeds universe {ef.universeValue.toNat}"])
          -- order can only break between equal high parts
          else if prev.any fun p => p.1 = highPart ∧ lowPart < p.2 then
            .error (.error [s!"EF sequence decreases at element {i}"])
          else checkOrder ef rest (i + 1) (some (highPart, lowPart))
      | _, _ => .error .panic

def checkSizes (ef : EliasFano) : Except Failure Unit := do
  let ones := (ef.high.map fun word => word.cpop.toNat).sum
  ensure (ef.len * ef.lowBits < 2 ^ 64) "EF low array size overflows"
  let expectLowWords := (ef.len * ef.lowBits + 63) / 64
  ensure (expectLowWords ≤ ef.low.length)
    s!"EF low array truncated: {ef.low.length} words, need {expectLowWords}"
  ensure (ones = ef.len) s!"EF high array has {ones} set bits for {ef.len} elements"
  ensure (ef.len = 0 → ef.universeValue = 0)
    s!"EF empty sequence with universe {ef.universeValue.toNat}"

def checkLast (ef : EliasFano) : Option (U64 × U64) → Except Failure Unit
  | none => .ok ()
  | some (h, l) =>
      let last := h <<< ef.lowBits ||| l
      ensure (last = ef.universeValue)
        s!"EF last element {last.toNat} disagrees with universe {ef.universeValue.toNat}"

def check (ef : EliasFano) : Except Failure Unit := do
  ef.checkSizes
  let last ← ef.checkOrder (scanOnes ef.high) 0 none
  ef.checkLast last

def parse : Parse EliasFano := do
  let len ← ByteReader.u64
  let universeValue ← ByteReader.u64
  let lowBits ← ByteReader.u32
  StateT.lift (ensure (lowBits.toNat < 64) s!"EF low_bits {lowBits.toNat} out of range")
  let low ← ByteReader.withContext "EF low words" ByteReader.u64Vec
  let high ← ByteReader.withContext "EF high words" ByteReader.u64Vec
  let ef : EliasFano := ⟨len.toNat, lowBits.toNat, low, high, universeValue⟩
  StateT.lift ef.check
  pure ef

/-- The sequence at the front of `bytes` and the bytes it takes. -/
def readFrom (bytes : List U8) : Except Failure (EliasFano × Nat) :=
  (parse.run ⟨bytes, 0⟩).map fun entry => (entry.1, entry.2.pos)

/-- What a passed size check says. -/
theorem checkSizes_ok {ef : EliasFano} (h : ef.checkSizes = .ok ()) :
    ef.len * ef.lowBits ≤ 64 * ef.low.length ∧ (scanOnes ef.high).length = ef.len ∧
      (ef.len = 0 → ef.universeValue = 0) := by
  obtain ⟨-, h⟩ := ByteReader.ensure_bind_ok h
  obtain ⟨low, h⟩ := ByteReader.ensure_bind_ok h
  obtain ⟨ones, h⟩ := ByteReader.ensure_bind_ok h
  refine ⟨?_, ?_, ByteReader.ensure_holds h⟩
  · omega
  · rw [scanOnes_length]
    exact ones

theorem check_ok_sizes {ef : EliasFano} (h : ef.check = .ok ()) : ef.checkSizes = .ok () := by
  unfold check at h
  cases sizes : ef.checkSizes with
  | error e =>
      rw [sizes] at h
      cases h
  | ok u => rfl

/-- The parser hands out only what the decoders rely on. -/
theorem readFrom_shaped {ef : EliasFano} {bytes : List U8} {used : Nat}
    (h : readFrom bytes = .ok (ef, used)) : ef.Shaped := by
  unfold readFrom at h
  cases ran : parse.run ⟨bytes, 0⟩ with
  | error e =>
      rw [ran] at h
      cases h
  | ok entry =>
      rw [ran] at h
      obtain ⟨rfl, -⟩ := Prod.mk.inj (Except.ok.inj h)
      obtain ⟨len, mid₁, -, ran⟩ := run_bind_ok ran
      obtain ⟨universeValue, mid₂, -, ran⟩ := run_bind_ok ran
      obtain ⟨lowBits, mid₃, -, ran⟩ := run_bind_ok ran
      obtain ⟨_, narrow, ran⟩ := run_check_ok ran
      obtain ⟨low, mid₄, -, ran⟩ := run_bind_ok ran
      obtain ⟨high, mid₅, -, ran⟩ := run_bind_ok ran
      obtain ⟨_, checked, ran⟩ := run_check_ok ran
      obtain ⟨same, -⟩ := Prod.mk.inj (Except.ok.inj ran)
      obtain ⟨covers, ones, -⟩ := checkSizes_ok (check_ok_sizes checked)
      rw [← same]
      exact ⟨ByteReader.ensure_holds narrow, covers, ones⟩

section Encoded

variable {values : List U64} {ef : EliasFano}

/-- The low part of an element is its remainder. -/
theorem Encodes.lowPart_eq (h : Encodes values ef) {i : Nat} {v : U64}
    (at_ : values[i]? = some v) :
    ∃ x, ef.lowPart i = some x ∧ x.toNat = v.toNat % 2 ^ ef.lowBits := by
  obtain ⟨inside, -⟩ := List.getElem?_eq_some_iff.mp at_
  obtain ⟨x, read, field⟩ := lowPart_spec h.shaped (h.len ▸ inside)
  refine ⟨x, read, Nat.eq_of_testBit_eq fun j => ?_⟩
  rw [Nat.testBit_mod_two_pow]
  show x.getLsbD j = _
  rw [field j]
  by_cases low : j < ef.lowBits
  · rw [h.fields i v at_ j low]
    rfl
  · rw [decide_eq_false low, Bool.false_and, Bool.false_and]

theorem toNat_shift (v : U64) (k : Nat) : (v >>> k).toNat = v.toNat / 2 ^ k := by
  rw [BitVec.toNat_ushiftRight, Nat.shiftRight_eq_div_pow]

theorem combine_parts {v x : U64} {k : Nat}
    (low : x.toNat = v.toNat % 2 ^ k) : (v >>> k) <<< k ||| x = v := by
  refine BitVec.eq_of_getLsbD_eq fun j hj => ?_
  have bit : x.getLsbD j = (decide (j < k) && v.getLsbD j) := by
    show x.toNat.testBit j = _
    rw [low, Nat.testBit_mod_two_pow]
    rfl
  rw [BitVec.getLsbD_or, BitVec.getLsbD_shiftLeft, BitVec.getLsbD_ushiftRight, bit]
  by_cases below : j < k
  · simp [below]
  · simp [below, hj, Nat.add_sub_cancel' (Nat.le_of_not_lt below)]

/-- The parts of an element as the ordering pass holds them. -/
def Parts (ef : EliasFano) (v : U64) (parts : U64 × U64) : Prop :=
  parts.1 = v >>> ef.lowBits ∧ parts.2.toNat = v.toNat % 2 ^ ef.lowBits

/-- An encoded sequence passes the ordering pass, which ends with its last element. -/
theorem Encodes.checkOrder_ok (h : Encodes values ef) (sorted : values.IsChain (· ≤ ·))
    (rest : List Nat) (i : Nat) (prev : Option (U64 × U64))
    (suffix : (scanOnes ef.high).drop i = rest)
    (before : ∀ p ∈ prev, ∃ k v, i = k + 1 ∧ values[k]? = some v ∧ Parts ef v p)
    (first : prev = none → i = 0) (inside : i ≤ values.length) :
    ∃ last, ef.checkOrder rest i prev = .ok last ∧
      (∀ p ∈ last, ∃ v ∈ values.getLast?, Parts ef v p) ∧ (last = none → values = []) := by
  have length : (scanOnes ef.high).length = values.length := h.shaped.ones.trans h.len
  induction rest generalizing i prev with
  | nil =>
      rw [List.drop_eq_nil_iff, length] at suffix
      obtain rfl := Nat.le_antisymm inside suffix
      refine ⟨prev, rfl, fun p hp => ?_, fun none => List.length_eq_zero_iff.mp (first none)⟩
      obtain ⟨k, v, len, at_, parts⟩ := before p hp
      refine ⟨v, ?_, parts⟩
      rw [Option.mem_def, List.getLast?_eq_getElem?, len]
      exact at_
  | cons setPos rest ih =>
      have there : (scanOnes ef.high)[i]? = some setPos := by
        rw [← List.head?_drop, suffix]
        rfl
      have next : (scanOnes ef.high).drop (i + 1) = rest := by
        rw [← List.tail_drop, suffix]
        rfl
      obtain ⟨here, -⟩ := List.getElem?_eq_some_iff.mp there
      rw [length] at here
      have at_ := List.getElem?_eq_getElem here
      have position := setPositions_getElem? ef.lowBits at_
      rw [← h.ones, there] at position
      obtain rfl := Option.some.inj position
      obtain ⟨x, read, low⟩ := h.lowPart_eq at_
      have high : BitVec.ofNat 64 (values[i] >>> ef.lowBits).toNat = values[i] >>> ef.lowBits := by
        rw [BitVec.ofNat_toNat, BitVec.setWidth_eq]
      have bounded : ¬ ef.universeValue >>> ef.lowBits < values[i] >>> ef.lowBits := by
        rw [BitVec.not_lt, BitVec.le_def, h.universeValue]
        exact shift_mono _ (le_universe sorted (List.getElem_mem here))
      have ordered : ¬ (prev.any fun p => p.1 = values[i] >>> ef.lowBits ∧ x < p.2) = true := by
        cases prev with
        | none => exact Bool.false_ne_true
        | some p =>
            obtain ⟨k, v, rfl, at_', high', low'⟩ := before p rfl
            rw [Option.any_some, decide_eq_true_eq]
            rintro ⟨same, less⟩
            obtain ⟨_, rfl⟩ := List.getElem?_eq_some_iff.mp at_'
            have le := BitVec.le_def.mp (List.pairwise_iff_getElem.mp
              (nonDecreasing_pairwise sorted) k (k + 1) (by omega) here (Nat.lt_succ_self k))
            have quotient := congrArg BitVec.toNat (high'.symm.trans same)
            rw [toNat_shift, toNat_shift] at quotient
            have split := Nat.div_add_mod values[k].toNat (2 ^ ef.lowBits)
            have split' := Nat.div_add_mod values[k + 1].toNat (2 ^ ef.lowBits)
            rw [BitVec.lt_def, low, low'] at less
            rw [quotient] at split
            omega
      obtain ⟨last, ran, parts, empty⟩ := ih (i + 1) (some (values[i] >>> ef.lowBits, x)) next
        (fun p hp => by
          obtain rfl := Option.some.inj hp
          exact ⟨i, values[i], rfl, at_, rfl, low⟩) nofun here
      refine ⟨last, ?_, parts, empty⟩
      rw [checkOrder, checkedSub, if_pos (Nat.le_add_left _ _), Nat.add_sub_cancel, read]
      simp only [high]
      rw [if_neg bounded, if_neg ordered]
      exact ran

/-- The low-bit count keeps the low array inside the word range. -/
theorem Encodes.bits_lt (h : Encodes values ef) : ef.len * ef.lowBits < 2 ^ 64 := by
  rw [h.len, h.lowBits, lowBitsFor]
  split
  · simp
  · rename_i some_
    have positive : ef.universeValue.toNat / values.length ≠ 0 := by
      rw [Nat.div_ne_zero_iff]
      omega
    have log := Nat.log2_self_le positive
    have small : (ef.universeValue.toNat / values.length).log2 <
        2 ^ (ef.universeValue.toNat / values.length).log2 := Nat.lt_two_pow_self
    have area := Nat.mul_le_mul_left values.length (Nat.le_trans (Nat.le_of_lt small) log)
    have back := Nat.mul_div_le ef.universeValue.toNat values.length
    have bound := ef.universeValue.isLt
    omega

/-- The high array stays within three bits an element. -/
theorem Encodes.high_le (h : Encodes values ef) :
    (ef.universeValue >>> ef.lowBits).toNat ≤ 2 * values.length := by
  rw [toNat_shift, h.lowBits, lowBitsFor]
  split
  · rename_i none
    rcases none with empty | small
    · have : values = [] := List.length_eq_zero_iff.mp empty
      have zero := h.universeValue
      rw [this] at zero
      rw [zero]
      simp
    · rw [Nat.pow_zero, Nat.div_one]
      omega
  · rename_i some_
    have log : ef.universeValue.toNat / values.length <
        2 ^ ((ef.universeValue.toNat / values.length).log2 + 1) := Nat.lt_log2_self
    generalize (ef.universeValue.toNat / values.length).log2 = k at log ⊢
    have upper := (Nat.div_lt_iff_lt_mul (Nat.pos_of_ne_zero fun e => some_ (.inl e))).mp log
    refine Nat.le_of_lt ((Nat.div_lt_iff_lt_mul (Nat.two_pow_pos k)).mpr ?_)
    rw [Nat.pow_succ] at upper
    calc ef.universeValue.toNat < 2 ^ k * 2 * values.length := upper
      _ = 2 * values.length * 2 ^ k := by ac_rfl

theorem Encodes.check_ok (h : Encodes values ef) (sorted : values.IsChain (· ≤ ·)) :
    ef.check = .ok () := by
  have shaped := h.shaped
  have ones := scanOnes_length ef.high
  rw [shaped.ones] at ones
  have sizes : ef.checkSizes = .ok () := by
    have low := h.low_length
    rw [← h.len] at low
    have empty : ef.len = 0 → ef.universeValue = 0 := by
      intro none
      rw [h.len, List.length_eq_zero_iff] at none
      rw [h.universeValue, none]
      rfl
    simp only [checkSizes, ByteReader.ensure_ok h.bits_lt,
      ByteReader.ensure_ok (Nat.le_of_eq low.symm), ByteReader.ensure_ok ones.symm,
      ByteReader.ensure_ok empty]
    rfl
  obtain ⟨last, ordered, parts, none⟩ := h.checkOrder_ok sorted (scanOnes ef.high) 0
    Option.none rfl nofun (fun _ => rfl) (Nat.zero_le _)
  have final : ef.checkLast last = .ok () := by
    cases last with
    | none => rfl
    | some p =>
        obtain ⟨v, mem, high, low⟩ := parts p rfl
        refine ByteReader.ensure_ok ?_ _
        rw [high, combine_parts low, h.universeValue, mem]
        rfl
  rw [check, sizes]
  show (ef.checkOrder _ 0 Option.none >>= ef.checkLast) = _
  rw [ordered]
  exact final

/-- An encoded sequence is read back from its record, wherever it stands. -/
theorem Encodes.parse_reads (h : Encodes values ef) (sorted : values.IsChain (· ≤ ·))
    (memory : values.length * 8 < 2 ^ 63) : Reads parse ef.writeInto ef := by
  have bits := h.shaped.lowBits_lt
  have high := h.high_le
  have highWords := h.high_length
  have lowWords := h.low_length
  have product : values.length * ef.lowBits ≤ values.length * 63 :=
    Nat.mul_le_mul_left _ (Nat.le_of_lt_succ bits)
  have len : (BitVec.ofNat 64 ef.len).toNat = ef.len := by
    rw [BitVec.toNat_ofNat, h.len, Nat.mod_eq_of_lt (by omega)]
  have lowBits : (BitVec.ofNat 32 ef.lowBits).toNat = ef.lowBits := by
    rw [BitVec.toNat_ofNat, Nat.mod_eq_of_lt (by omega)]
  have same : (⟨(BitVec.ofNat 64 ef.len).toNat, (BitVec.ofNat 32 ef.lowBits).toNat, ef.low,
      ef.high, ef.universeValue⟩ : EliasFano) = ef := by rw [len, lowBits]
  have narrow : (BitVec.ofNat 32 ef.lowBits).toNat < 64 := by rwa [lowBits]
  refine (ByteReader.u64_reads (BitVec.ofNat 64 ef.len)).bind
    ((ByteReader.u64_reads ef.universeValue).bind
      ((ByteReader.u32_reads (BitVec.ofNat 32 ef.lowBits)).bind
        (Reads.check (ByteReader.ensure_ok narrow _) ?_)))
  refine (ByteReader.withContext_reads _ (ByteReader.u64Vec_reads (by omega))).bind
    ((ByteReader.withContext_reads _ (ByteReader.u64Vec_reads (by omega))).last ?_)
  dsimp only
  rw [same]
  exact Reads.check (h.check_ok sorted) (Reads.pure ef)

/-- The parser takes an encoded sequence from the front of the bytes. -/
theorem Encodes.readFrom_eq (h : Encodes values ef) (sorted : values.IsChain (· ≤ ·))
    (memory : values.length * 8 < 2 ^ 63) (after : List U8) :
    readFrom (ef.writeInto ++ after) = .ok (ef, ef.writeInto.length) := by
  rw [readFrom, (h.parse_reads sorted memory).run_zero after]
  rfl

end Encoded

/-- Where a value can come from: its fields are private to the codec. -/
inductive Built : EliasFano → Prop
  | encoded {values : List U64} {ef : EliasFano} (h : encode values = some ef) : Built ef
  | read {bytes : List U8} {ef : EliasFano} {used : Nat}
      (h : readFrom bytes = .ok (ef, used)) : Built ef

theorem Built.shaped {ef : EliasFano} (h : Built ef) : ef.Shaped := by
  cases h with
  | @encoded values _ h =>
      by_cases sorted : values.IsChain (· ≤ ·)
      · obtain ⟨ef', encoded, encodes⟩ := encode_encodes sorted
        obtain rfl := Option.some.inj (h.symm.trans encoded)
        exact encodes.shaped
      · rw [encode, if_neg sorted] at h
        cases h
  | read h => exact readFrom_shaped h

end EliasFano

/-- What the language promises of every slice of 64-bit values. -/
def InMemory (values : List U64) : Prop := values.length * 8 < 2 ^ 63

/-- A non-decreasing sequence survives the codec, element by element and as a whole, and its
record is read back between any bytes. -/
theorem elias_fano_round_trip (values : List U64) (sorted : values.Pairwise (· ≤ ·))
    (memory : InMemory values) :
    ∃ ef, EliasFano.encode values = some ef ∧ ef.toVec = some values ∧
      (∀ i, ef.get i = some values[i]?) ∧
      ∀ before after : List U8, ∃ back,
        EliasFano.readFrom ((before ++ ef.writeInto ++ after).drop before.length) =
          .ok (back, ef.writeInto.length) ∧
        back.toVec = some values ∧ ∀ i, back.get i = some values[i]? := by
  have chain := List.isChain_iff_pairwise.mpr sorted
  obtain ⟨ef, encoded, h⟩ := EliasFano.encode_encodes chain
  have whole : ef.toVec = some values := by
    rw [EliasFano.toVec_eq h.shaped, h.elements_eq]
  have each : ∀ i, ef.get i = some values[i]? := fun i => by
    rw [EliasFano.get_eq h.shaped, h.elements_eq]
  refine ⟨ef, encoded, whole, each, fun before after => ⟨ef, ?_, whole, each⟩⟩
  rw [List.append_assoc, List.drop_left]
  exact h.readFrom_eq chain memory after

theorem elias_fano_round_trip_spread :
    ∃ ef, EliasFano.encode [1, 5, 5, 200] = some ef ∧ ef.toVec = some [1, 5, 5, 200] ∧
      (∀ i, ef.get i = some ([1, 5, 5, 200] : List U64)[i]?) ∧
      ∀ before after : List U8, ∃ back,
        EliasFano.readFrom ((before ++ ef.writeInto ++ after).drop before.length) =
          .ok (back, ef.writeInto.length) ∧
        back.toVec = some [1, 5, 5, 200] ∧
        ∀ i, back.get i = some ([1, 5, 5, 200] : List U64)[i]? :=
  elias_fano_round_trip [1, 5, 5, 200] (by decide) (by unfold InMemory; decide)

end AetherGraph
