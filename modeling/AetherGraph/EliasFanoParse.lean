import AetherGraph.EliasFanoFormat

/-! The Elias-Fano parser on arbitrary bytes: it never panics, and what it hands out is a
non-decreasing sequence up to its largest value.  The ordering pass compares split parts; the
bound on the high part keeps their order that of the values. -/

namespace AetherGraph

open Foundation

namespace EliasFano

/-- The value of two parts. -/
def joined (ef : EliasFano) (p : U64 × U64) : U64 := p.1 <<< ef.lowBits ||| p.2

/-- Parts whose value fits a word. -/
structure Formed (ef : EliasFano) (p : U64 × U64) : Prop where
  bounded : p.1 ≤ ef.universeValue >>> ef.lowBits
  low : p.2.toNat < 2 ^ ef.lowBits

section Parts

variable {ef : EliasFano} {p q : U64 × U64}

theorem Formed.toNat_joined (h : Formed ef p) :
    (ef.joined p).toNat = p.1.toNat * 2 ^ ef.lowBits + p.2.toNat := by
  have bounded := BitVec.le_def.mp h.bounded
  rw [toNat_shift] at bounded
  have fits : p.1.toNat * 2 ^ ef.lowBits < 2 ^ 64 :=
    Nat.lt_of_le_of_lt ((Nat.le_div_iff_mul_le (Nat.two_pow_pos _)).mp bounded)
      ef.universeValue.isLt
  rw [joined, BitVec.toNat_or, BitVec.toNat_shiftLeft, Nat.shiftLeft_eq, Nat.mod_eq_of_lt fits,
    ← Nat.shiftLeft_eq, ← Nat.shiftLeft_add_eq_or_of_lt h.low]

/-- Split parts are ordered as their values. -/
theorem Formed.joined_le (hq : Formed ef q) (hp : Formed ef p) (high : q.1 ≤ p.1)
    (low : q.1 = p.1 → q.2 ≤ p.2) : ef.joined q ≤ ef.joined p := by
  rw [BitVec.le_def, hq.toNat_joined, hp.toNat_joined]
  rcases Nat.lt_or_eq_of_le (BitVec.le_def.mp high) with less | same
  · have next := Nat.mul_le_mul_right (2 ^ ef.lowBits) (Nat.succ_le_of_lt less)
    rw [Nat.succ_mul] at next
    have := hq.low
    omega
  · rw [same]
    exact Nat.add_le_add_left (BitVec.le_def.mp (low (BitVec.eq_of_toNat_eq same))) _

theorem fieldAt_lt {words : List U64} {start width : Nat} {x : U64}
    (h : FieldAt words start width x) : x.toNat < 2 ^ width := by
  apply Nat.lt_pow_two_of_testBit
  intro j far
  have bit := h j
  rw [decide_eq_false (Nat.not_lt.mpr far), Bool.false_and] at bit
  exact bit

end Parts

section Order

variable {ef : EliasFano}

/-- Every bit position of the high array fits a word. -/
def Indexed (ef : EliasFano) : Prop := 64 * ef.high.length ≤ 2 ^ 64

theorem setPos_lt {setPos : Nat} (mem : setPos ∈ scanOnes ef.high) :
    setPos < 64 * ef.high.length := by
  have bit := mem_scanOnes.mp mem
  rcases Nat.lt_or_ge (setPos / 64) ef.high.length with inside | outside
  · omega
  · rw [bitAt, List.getD_eq_getElem?_getD, List.getElem?_eq_none outside] at bit
    simp at bit

/-- One element of the ordering pass, whose set bit the scan has just found. -/
theorem Shaped.element_parts (shaped : ef.Shaped) (indexed : ef.Indexed) {i setPos : Nat}
    (at_ : (scanOnes ef.high)[i]? = some setPos) :
    ∃ lowPart, checkedSub setPos i = some (setPos - i) ∧ ef.lowPart i = some lowPart ∧
      lowPart.toNat < 2 ^ ef.lowBits ∧ (BitVec.ofNat 64 (setPos - i)).toNat = setPos - i ∧
      ef.elements[i]? = some (ef.joined (BitVec.ofNat 64 (setPos - i), lowPart)) := by
  have le := le_of_ascending (scanOnes_sorted _) at_
  have inside := setPos_lt (List.mem_of_getElem? at_)
  obtain ⟨hi, -⟩ := List.getElem?_eq_some_iff.mp at_
  obtain ⟨lowPart, read, field⟩ := lowPart_spec shaped (shaped.ones ▸ hi)
  have sub : checkedSub setPos i = some (setPos - i) := if_pos le
  have high : checkedShl (BitVec.ofNat 64 (setPos - i)) ef.lowBits =
      some (BitVec.ofNat 64 (setPos - i) <<< ef.lowBits) := if_pos shaped.lowBits_lt
  refine ⟨lowPart, sub, read, fieldAt_lt field, ?_, ?_⟩
  · rw [BitVec.toNat_ofNat, Nat.mod_eq_of_lt]
    unfold Indexed at indexed
    omega
  · rw [← elements_getElem? shaped at_, valueAt, sub, read]
    simp only [Option.bind_eq_bind, Option.bind_some, high]
    rfl

/-- The high parts never decrease: set positions strictly increase. -/
theorem high_le {i setPos next : Nat} (at_ : (scanOnes ef.high)[i]? = some setPos)
    (after : (scanOnes ef.high)[i + 1]? = some next) : setPos - i ≤ next - (i + 1) := by
  obtain ⟨hi, rfl⟩ := List.getElem?_eq_some_iff.mp at_
  obtain ⟨hnext, rfl⟩ := List.getElem?_eq_some_iff.mp after
  have := List.pairwise_iff_getElem.mp (scanOnes_sorted ef.high) i (i + 1) hi hnext (by omega)
  omega

/-- What the pass has kept of the element before `i`. -/
structure Before (ef : EliasFano) (i : Nat) (p : U64 × U64) : Prop extends Formed ef p where
  high : ∀ setPos, (scanOnes ef.high)[i]? = some setPos → p.1.toNat ≤ setPos - i

/-- The pass keeps the values seen and still to come in order, and ends with the last of them. -/
theorem Shaped.checkOrder_sound (shaped : ef.Shaped) (indexed : ef.Indexed) (rest : List Nat)
    (i : Nat) (prev last : Option (U64 × U64)) (suffix : (scanOnes ef.high).drop i = rest)
    (before : ∀ p ∈ prev, Before ef i p) (ran : ef.checkOrder rest i prev = .ok last) :
    (prev.toList.map ef.joined ++ ef.elements.drop i).IsChain (· ≤ ·) ∧
      last.map ef.joined = (prev.toList.map ef.joined ++ ef.elements.drop i).getLast? := by
  induction rest generalizing i prev with
  | nil =>
      obtain rfl := Except.ok.inj ran
      rw [List.drop_eq_nil_iff, shaped.ones, ← elements_length shaped] at suffix
      rw [List.drop_eq_nil_of_le suffix]
      cases prev with
      | none => exact ⟨List.IsChain.nil, rfl⟩
      | some p => exact ⟨List.IsChain.singleton _, rfl⟩
  | cons setPos rest ih =>
      have at_ : (scanOnes ef.high)[i]? = some setPos := by
        rw [← List.head?_drop, suffix]
        rfl
      have next : (scanOnes ef.high).drop (i + 1) = rest := by
        rw [← List.tail_drop, suffix]
        rfl
      obtain ⟨lowPart, sub, read, low, high, element⟩ := shaped.element_parts indexed at_
      rw [checkOrder, sub, read] at ran
      dsimp only at ran
      split at ran
      · cases ran
      rename_i bounded
      split at ran
      · cases ran
      rename_i ordered
      have formed : Formed ef (BitVec.ofNat 64 (setPos - i), lowPart) :=
        ⟨BitVec.not_lt.mp bounded, low⟩
      have step := ih (i + 1) (some (BitVec.ofNat 64 (setPos - i), lowPart)) next
        (fun p hp => by
          obtain rfl := Option.some.inj hp
          exact ⟨formed, fun after found => high.trans_le (high_le at_ found)⟩) ran
      obtain ⟨inside, value⟩ := List.getElem?_eq_some_iff.mp element
      rw [List.drop_eq_getElem_cons inside, value]
      cases prev with
      | none => exact step
      | some q =>
          have kept := before q rfl
          have le : ef.joined q ≤ ef.joined (BitVec.ofNat 64 (setPos - i), lowPart) := by
            refine kept.toFormed.joined_le formed ?_ fun same => ?_
            · rw [BitVec.le_def, high]
              exact kept.high setPos at_
            · rw [Option.any_some, decide_eq_true_eq] at ordered
              exact BitVec.not_lt.mp fun less => ordered ⟨same, less⟩
          exact ⟨step.1.cons_cons le, step.2⟩

/-- The ordering pass reads no part that is not there. -/
theorem Shaped.checkOrder_ne_panic (shaped : ef.Shaped) (rest : List Nat) (i : Nat)
    (prev : Option (U64 × U64)) (suffix : (scanOnes ef.high).drop i = rest) :
    ef.checkOrder rest i prev ≠ .error .panic := by
  induction rest generalizing i prev with
  | nil => rintro ⟨⟩
  | cons setPos rest ih =>
      have at_ : (scanOnes ef.high)[i]? = some setPos := by
        rw [← List.head?_drop, suffix]
        rfl
      have next : (scanOnes ef.high).drop (i + 1) = rest := by
        rw [← List.tail_drop, suffix]
        rfl
      have sub : checkedSub setPos i = some (setPos - i) :=
        if_pos (le_of_ascending (scanOnes_sorted _) at_)
      obtain ⟨hi, -⟩ := List.getElem?_eq_some_iff.mp at_
      obtain ⟨lowPart, read, -⟩ := lowPart_spec shaped (shaped.ones ▸ hi)
      rw [checkOrder, sub, read]
      dsimp only
      split
      · rintro ⟨⟩
      · split
        · rintro ⟨⟩
        · exact ih (i + 1) _ next

end Order

section Check

variable {ef : EliasFano}

theorem checkSizes_shaped (narrow : ef.lowBits < 64) (sizes : ef.checkSizes = .ok ()) :
    ef.Shaped :=
  have ⟨covers, ones, _⟩ := checkSizes_ok sizes
  ⟨narrow, covers, ones⟩

theorem checkSizes_ne_panic : ef.checkSizes ≠ .error .panic := by
  refine ByteReader.ensure_bind_avoids ?_
  refine ByteReader.ensure_bind_avoids ?_
  refine ByteReader.ensure_bind_avoids ?_
  exact ByteReader.ensure_avoids

theorem checkLast_ne_panic (last : Option (U64 × U64)) : ef.checkLast last ≠ .error .panic := by
  cases last with
  | none => exact nofun
  | some p => exact ByteReader.ensure_avoids

theorem check_ne_panic (narrow : ef.lowBits < 64) : ef.check ≠ .error .panic := by
  intro stopped
  unfold check at stopped
  cases sizes : ef.checkSizes with
  | error e =>
      rw [sizes] at stopped
      rw [show e = .panic from Except.error.inj stopped] at sizes
      exact checkSizes_ne_panic sizes
  | ok u =>
      have shaped := checkSizes_shaped narrow sizes
      rw [sizes] at stopped
      change (ef.checkOrder _ 0 none >>= ef.checkLast) = _ at stopped
      cases ordered : ef.checkOrder (scanOnes ef.high) 0 none with
      | error e =>
          rw [ordered] at stopped
          rw [show e = .panic from Except.error.inj stopped] at ordered
          exact shaped.checkOrder_ne_panic _ 0 none rfl ordered
      | ok last =>
          rw [ordered] at stopped
          exact checkLast_ne_panic last stopped

/-- A value that passes is a non-decreasing sequence up to its largest value. -/
theorem check_sound (shaped : ef.Shaped) (indexed : ef.Indexed) (passed : ef.check = .ok ()) :
    ef.elements.Pairwise (· ≤ ·) ∧ ∀ v, ef.elements.getLast? = some v → v = ef.universeValue := by
  have sizes := check_ok_sizes passed
  unfold check at passed
  rw [sizes] at passed
  change (ef.checkOrder _ 0 none >>= ef.checkLast) = _ at passed
  cases ordered : ef.checkOrder (scanOnes ef.high) 0 none with
  | error e =>
      rw [ordered] at passed
      cases passed
  | ok last =>
      obtain ⟨chain, final⟩ :=
        shaped.checkOrder_sound indexed _ 0 none last rfl (fun p hp => nomatch hp) ordered
      refine ⟨List.isChain_iff_pairwise.mp chain, fun v hv => ?_⟩
      change last.map ef.joined = ef.elements.getLast? at final
      rw [hv] at final
      obtain ⟨p, rfl, rfl⟩ := Option.map_eq_some_iff.mp final
      rw [ordered] at passed
      exact ByteReader.ensure_holds passed

end Check

section Parse

theorem parse_avoids : Avoids .panic parse :=
  ByteReader.u64_avoids.bind fun _ => ByteReader.u64_avoids.bind fun _ =>
    ByteReader.u32_avoids.bind fun _ => Avoids.check ByteReader.ensure_avoids fun _ narrow =>
      (ByteReader.withContext_avoids _ ByteReader.u64Vec_avoids).bind fun _ =>
        (ByteReader.withContext_avoids _ ByteReader.u64Vec_avoids).bind fun _ =>
          Avoids.check (check_ne_panic (ByteReader.ensure_holds narrow)) fun _ _ => Avoids.pure _

theorem readFrom_ne_panic (bytes : List U8) : readFrom bytes ≠ .error .panic := by
  unfold readFrom
  cases ran : parse.run ⟨bytes, 0⟩ with
  | ok entry => exact nofun
  | error e =>
      intro stopped
      rw [show e = .panic from Except.error.inj stopped] at ran
      exact parse_avoids _ ran

/-- What the parser has checked of the value it hands out. -/
theorem readFrom_checked {ef : EliasFano} {bytes : List U8} {used : Nat}
    (h : readFrom bytes = .ok (ef, used)) :
    ef.check = .ok () ∧ 8 * ef.high.length ≤ bytes.length := by
  unfold readFrom at h
  cases ran : parse.run ⟨bytes, 0⟩ with
  | error e =>
      rw [ran] at h
      cases h
  | ok entry =>
      rw [ran] at h
      obtain ⟨rfl, -⟩ := Prod.mk.inj (Except.ok.inj h)
      obtain ⟨len, mid₁, lenRead, ran⟩ := run_bind_ok ran
      obtain ⟨universeValue, mid₂, universeRead, ran⟩ := run_bind_ok ran
      obtain ⟨lowBits, mid₃, lowBitsRead, ran⟩ := run_bind_ok ran
      obtain ⟨_, narrow, ran⟩ := run_check_ok ran
      obtain ⟨low, mid₄, lowRead, ran⟩ := run_bind_ok ran
      obtain ⟨high, mid₅, highRead, ran⟩ := run_bind_ok ran
      obtain ⟨_, checked, ran⟩ := run_check_ok ran
      obtain ⟨same, -⟩ := Prod.mk.inj (Except.ok.inj ran)
      have fits := (ByteReader.u64Vec_ok (ByteReader.withContext_ok highRead)).2
      rw [(ByteReader.u64Vec_ok (ByteReader.withContext_ok lowRead)).1,
        ByteReader.u32_items lowBitsRead, ByteReader.u64_items universeRead,
        ByteReader.u64_items lenRead] at fits
      rw [← same]
      exact ⟨checked, fits⟩

end Parse

end EliasFano

/-- Every bit of the slice has an index that fits a word, as in any address space below
2⁶¹ bytes. -/
def BitAddressable (bytes : List U8) : Prop := 8 * bytes.length < 2 ^ 64

end AetherGraph
