import AetherGraph.TwoSnapshot

/-! The two places that apply the acceptance rule to landed slots: `torn_rows` on the host
and the validation kernel, one warp a row. -/

namespace AetherGraph

/-- Bytes of one slot, by offset. -/
abbrev SlotBytes := Nat → UInt8

/-- Little-endian value of `n` bytes. -/
def readLe (slot : SlotBytes) : Nat → Nat → Nat
  | _, 0 => 0
  | at_, n + 1 => (slot at_).toNat + 256 * readLe slot (at_ + 1) n

def featureSlotHeadBytes : Nat := 16

/-- `featureSlotHeadBytes + feature_dim * 4`, raised to the next multiple of 8. -/
def featureSlotTailOffset (dim : Nat) : Nat :=
  let afterFeatures := featureSlotHeadBytes + dim * 4
  if afterFeatures % 8 = 0 then afterFeatures else afterFeatures + (8 - afterFeatures % 8)

def cpuSeqlockAccept (head tail : Nat) : Bool :=
  decide (head = tail) && decide (head ≠ 0) && decide (head % 2 = 0)

def payloadBytes (slot : SlotBytes) (dim : Nat) : List UInt8 :=
  (List.range (dim * 4)).map fun i => slot (featureSlotHeadBytes + i)

/-- The test inside `torn_rows`. -/
def tornRow (a b : SlotBytes) (dim : Nat) : Bool :=
  let v := readLe a 0 8
  let consistent := decide (v = readLe a (featureSlotTailOffset dim) 8) &&
    decide (v = readLe b 0 8) && decide (v = readLe b (featureSlotTailOffset dim) 8) &&
    cpuSeqlockAccept v v
  !(consistent && decide (payloadBytes a dim = payloadBytes b dim))

/-- Rows whose slots in the two landing regions are not accepted. -/
def tornRows (s1 s2 : SlotBytes) (stride dim : Nat) (rows : List Nat) : List Nat :=
  rows.filter fun i => tornRow (fun o => s1 (i * stride + o)) (fun o => s2 (i * stride + o)) dim

/-- Rounds a warp keeps in flight. -/
def gatherInFlight : Nat := 3

/-- `__any_sync` over the warp. -/
def anySync (bad : Nat → Bool) : Bool := (List.range 32).any bad

/-- A lane's four words of one round differ. -/
def quadBad (f1 f2 : Nat → Nat) (round lane : Nat) : Bool :=
  (List.range 4).any fun c =>
    decide (f1 (round * 128 + lane * 4 + c) ≠ f2 (round * 128 + lane * 4 + c))

/-- The lanes of a warp store `count` consecutive words. -/
def storeWords (f dst : Nat → Nat) (base count : Nat) : Nat → Nat := fun e =>
  if base ≤ e ∧ e < base + count then f e else dst e

/-- Vector rounds in groups of `gatherInFlight`; `none` when a group differs. -/
def groupRounds (f1 f2 : Nat → Nat) (rounds r : Nat) (dst : Nat → Nat) : Option (Nat × (Nat → Nat)) :=
  if r + gatherInFlight ≤ rounds then
    if anySync fun lane => (List.range gatherInFlight).any fun k => quadBad f1 f2 (r + k) lane then
      none
    else groupRounds f1 f2 rounds (r + gatherInFlight)
      (storeWords f1 dst (r * 128) (gatherInFlight * 128))
  else some (r, dst)
termination_by rounds - r
decreasing_by simp only [gatherInFlight] at *; omega

def singleRounds (f1 f2 : Nat → Nat) (rounds r : Nat) (dst : Nat → Nat) : Option (Nat → Nat) :=
  if r < rounds then
    if anySync fun lane => quadBad f1 f2 r lane then none
    else singleRounds f1 f2 rounds (r + 1) (storeWords f1 dst (r * 128) 128)
  else some dst
termination_by rounds - r

/-- Lane-strided remainder, and the whole row when `dim` is not a multiple of 4. -/
def scalarRounds (f1 f2 : Nat → Nat) (dim base : Nat) (dst : Nat → Nat) : Option (Nat → Nat) :=
  if base < dim then
    if anySync fun lane => decide (base + lane < dim ∧ f1 (base + lane) ≠ f2 (base + lane)) then none
    else scalarRounds f1 f2 dim (base + 32) (storeWords f1 dst base (min 32 (dim - base)))
  else some dst
termination_by dim - base

/-- `none` is a row that differs; else what the output row holds. -/
def warpCompareAndCompact (f1 f2 dst : Nat → Nat) (dim : Nat) : Option (Nat → Nat) :=
  if dim % 4 = 0 then
    (groupRounds f1 f2 (dim / 128) 0 dst).bind fun (r, dst) =>
      (singleRounds f1 f2 (dim / 128) r dst).bind fun dst =>
        scalarRounds f1 f2 dim (dim / 128 * 128) dst
  else scalarRounds f1 f2 dim 0 dst

/-- `(x + 7) & ~7`. -/
def featureTailOffset (dim : Nat) : Nat := (featureSlotHeadBytes + dim * 4 + 7) / 8 * 8

/-- One row of `validate_and_compact`: `none` sets the row's retry flag. -/
def validateRow (slot1 slot2 : SlotBytes) (dim : Nat) (dst : Nat → Nat) : Option (Nat → Nat) :=
  let head1 := readLe slot1 0 8
  let head2 := readLe slot2 0 8
  let tail1 := readLe slot1 (featureTailOffset dim) 8
  let tail2 := readLe slot2 (featureTailOffset dim) 8
  if head1 = tail1 ∧ head1 = head2 ∧ head1 = tail2 ∧ head1 % 2 = 0 ∧ head1 ≠ 0 then
    warpCompareAndCompact (fun e => readLe slot1 (featureSlotHeadBytes + e * 4) 4)
      (fun e => readLe slot2 (featureSlotHeadBytes + e * 4) 4) dst dim
  else none

/-- The rule on landed bytes. -/
def acceptSlots (a b : SlotBytes) (dim : Nat) : Bool :=
  acceptRow (readLe a 0 8) (readLe a (featureSlotTailOffset dim) 8) (readLe b 0 8)
    (readLe b (featureSlotTailOffset dim) 8) (decide (payloadBytes a dim = payloadBytes b dim))

theorem featureTailOffset_eq (dim : Nat) : featureTailOffset dim = featureSlotTailOffset dim := by
  simp only [featureTailOffset, featureSlotTailOffset]
  split <;> omega

theorem tornRow_eq (a b : SlotBytes) (dim : Nat) : tornRow a b dim = !acceptSlots a b dim := by
  simp only [tornRow, acceptSlots, acceptRow, cpuSeqlockAccept]
  generalize readLe a 0 8 = v, readLe a (featureSlotTailOffset dim) 8 = tail1,
    readLe b 0 8 = head2, readLe b (featureSlotTailOffset dim) 8 = tail2,
    decide (payloadBytes a dim = payloadBytes b dim) = same
  congr 2
  rw [Bool.eq_iff_iff]
  simp only [Bool.and_eq_true, decide_eq_true_eq]
  constructor
  · rintro ⟨⟨⟨tail, head⟩, tail'⟩, ⟨-, written⟩, even⟩
    exact ⟨tail, head, tail', even, written⟩
  · rintro ⟨tail, head, tail', even, written⟩
    exact ⟨⟨⟨tail, head⟩, tail'⟩, ⟨trivial, written⟩, even⟩

theorem anySync_eq_false {bad : Nat → Bool} :
    anySync bad = false ↔ ∀ lane < 32, bad lane = false := by
  simp [anySync]

/-- Every word from `lo` up to `hi` agrees. -/
def Agree (f1 f2 : Nat → Nat) (lo hi : Nat) : Prop := ∀ e, lo ≤ e → e < hi → f1 e = f2 e

theorem Agree.append {f1 f2 : Nat → Nat} {lo mid hi : Nat} (low : lo ≤ mid) (high : mid ≤ hi) :
    Agree f1 f2 lo hi ↔ Agree f1 f2 lo mid ∧ Agree f1 f2 mid hi := by
  constructor
  · intro all
    exact ⟨fun e le lt => all e le (by omega), fun e le lt => all e (by omega) lt⟩
  · rintro ⟨first, second⟩ e le lt
    by_cases he : e < mid
    · exact first e le he
    · exact second e (by omega) lt

theorem Agree.empty (f1 f2 : Nat → Nat) (lo : Nat) : Agree f1 f2 lo lo := fun e le lt => by omega

/-- The thirty-two lanes of a round cover its 128 words. -/
theorem quadBad_round {f1 f2 : Nat → Nat} {r : Nat} :
    (∀ lane < 32, quadBad f1 f2 r lane = false) ↔ Agree f1 f2 (r * 128) ((r + 1) * 128) := by
  simp only [quadBad, List.any_eq_false, List.mem_range, decide_eq_true_eq, not_not]
  constructor
  · intro quads e le lt
    have quad := quads ((e - r * 128) / 4) (by omega) ((e - r * 128) % 4) (by omega)
    rwa [show r * 128 + (e - r * 128) / 4 * 4 + (e - r * 128) % 4 = e by omega] at quad
  · intro all lane hl c hc
    exact all _ (by omega) (by omega)

/-- The lanes of a scalar round cover the words up to the end of the row. -/
theorem scalar_round {f1 f2 : Nat → Nat} {dim base : Nat} :
    (∀ lane < 32, decide (base + lane < dim ∧ f1 (base + lane) ≠ f2 (base + lane)) = false) ↔
      Agree f1 f2 base (base + min 32 (dim - base)) := by
  simp only [decide_eq_false_iff_not, not_and, not_not]
  constructor
  · intro lanes e le lt
    have lane := lanes (e - base) (by omega) (by omega)
    rwa [show base + (e - base) = e by omega] at lane
  · intro all lane hl within
    exact all _ (by omega) (by omega)

/-- Words stored in two rounds are stored in one. -/
theorem storeWords_storeWords (f dst : Nat → Nat) (lo m n : Nat) :
    storeWords f (storeWords f dst lo m) (lo + m) n = storeWords f dst lo (m + n) := by
  funext e
  simp only [storeWords]
  by_cases early : lo ≤ e ∧ e < lo + m
  · rw [if_pos early, ite_self, if_pos (by omega)]
  · rw [if_neg early]
    by_cases late : lo + m ≤ e ∧ e < lo + m + n
    · rw [if_pos late, if_pos (by omega)]
    · rw [if_neg late, if_neg (by omega)]

theorem storeWords_zero (f dst : Nat → Nat) (lo : Nat) : storeWords f dst lo 0 = dst :=
  funext fun e => if_neg (by omega)

theorem group_round {f1 f2 : Nat → Nat} {r : Nat} :
    (anySync fun lane => (List.range gatherInFlight).any fun k => quadBad f1 f2 (r + k) lane) =
      false ↔ Agree f1 f2 (r * 128) ((r + gatherInFlight) * 128) := by
  have rounds : (∀ k < 3, Agree f1 f2 ((r + k) * 128) ((r + k + 1) * 128)) ↔
      Agree f1 f2 (r * 128) ((r + 3) * 128) := by
    constructor
    · intro each e le lt
      have low := Nat.div_mul_le_self e 128
      have high := Nat.lt_div_mul_add (a := e) (b := 128) (by decide)
      generalize e / 128 = q at low high
      obtain ⟨k, rfl⟩ := Nat.exists_eq_add_of_le (show r ≤ q by omega)
      have hk : k < 3 := by omega
      exact each k hk e low (by rw [Nat.succ_mul]; exact high)
    · intro all k hk e le lt
      rw [Nat.succ_mul] at lt
      have low : r * 128 ≤ e := by omega
      have high : e < (r + 3) * 128 := by omega
      exact all e low high
  rw [anySync_eq_false, gatherInFlight, ← rounds]
  simp only [List.any_eq_false, List.mem_range, Bool.not_eq_true]
  constructor
  · intro lanes k hk
    exact quadBad_round.mp fun lane hl => lanes lane hl k hk
  · intro all lane hl k hk
    exact quadBad_round.mpr (all k hk) lane hl

theorem groupRounds_none {f1 f2 : Nat → Nat} {rounds r : Nat} {dst : Nat → Nat}
    (h : groupRounds f1 f2 rounds r dst = none) : ¬ Agree f1 f2 (r * 128) (rounds * 128) := by
  fun_induction groupRounds f1 f2 rounds r dst with
  | case1 r dst fits bad =>
      intro all
      rw [group_round.mpr fun e le lt => all e le (by omega)] at bad
      cases bad
  | case2 r dst fits same ih => exact fun all => ih h fun e le lt => all e (by omega) lt
  | case3 => cases h

theorem groupRounds_some {f1 f2 : Nat → Nat} {rounds r : Nat} {dst : Nat → Nat} {r' : Nat}
    {dst' : Nat → Nat} (h : groupRounds f1 f2 rounds r dst = some (r', dst')) (start : r ≤ rounds) :
    (r ≤ r' ∧ r' ≤ rounds) ∧ Agree f1 f2 (r * 128) (r' * 128) ∧
      dst' = storeWords f1 dst (r * 128) ((r' - r) * 128) := by
  fun_induction groupRounds f1 f2 rounds r dst with
  | case1 => cases h
  | case2 r dst fits same ih =>
      rw [Bool.not_eq_true] at same
      obtain ⟨range, rest, stored⟩ := ih h fits
      refine ⟨⟨by omega, range.2⟩, ?_, ?_⟩
      · exact (Agree.append (by omega) (by omega)).mpr ⟨group_round.mp same, rest⟩
      · rw [stored, Nat.add_mul, storeWords_storeWords]
        congr 1
        omega
  | case3 r dst rest =>
      obtain ⟨rfl, rfl⟩ := Prod.mk.inj (Option.some.inj h)
      refine ⟨⟨Nat.le_refl _, start⟩, .empty _ _ _, ?_⟩
      rw [Nat.sub_self, Nat.zero_mul, storeWords_zero]

theorem singleRounds_none {f1 f2 : Nat → Nat} {rounds r : Nat} {dst : Nat → Nat}
    (h : singleRounds f1 f2 rounds r dst = none) : ¬ Agree f1 f2 (r * 128) (rounds * 128) := by
  fun_induction singleRounds f1 f2 rounds r dst with
  | case1 r dst fits bad =>
      intro all
      rw [anySync_eq_false.mpr (quadBad_round.mpr fun e le lt => all e le (by omega))] at bad
      cases bad
  | case2 r dst fits same ih => exact fun all => ih h fun e le lt => all e (by omega) lt
  | case3 => cases h

theorem singleRounds_some {f1 f2 : Nat → Nat} {rounds r : Nat} {dst dst' : Nat → Nat}
    (h : singleRounds f1 f2 rounds r dst = some dst') (start : r ≤ rounds) :
    Agree f1 f2 (r * 128) (rounds * 128) ∧
      dst' = storeWords f1 dst (r * 128) ((rounds - r) * 128) := by
  fun_induction singleRounds f1 f2 rounds r dst with
  | case1 => cases h
  | case2 r dst fits same ih =>
      rw [Bool.not_eq_true, anySync_eq_false] at same
      obtain ⟨rest, stored⟩ := ih h fits
      refine ⟨(Agree.append (by omega) (by omega)).mpr ⟨quadBad_round.mp same, rest⟩, ?_⟩
      rw [stored, Nat.add_mul, Nat.one_mul, storeWords_storeWords]
      congr 1
      omega
  | case3 r dst rest =>
      obtain rfl := Option.some.inj h
      obtain rfl : r = rounds := by omega
      exact ⟨.empty _ _ _, by rw [Nat.sub_self, Nat.zero_mul, storeWords_zero]⟩

theorem scalarRounds_none {f1 f2 : Nat → Nat} {dim base : Nat} {dst : Nat → Nat}
    (h : scalarRounds f1 f2 dim base dst = none) : ¬ Agree f1 f2 base dim := by
  fun_induction scalarRounds f1 f2 dim base dst with
  | case1 base dst fits bad =>
      intro all
      rw [anySync_eq_false.mpr (scalar_round.mpr fun e le lt => all e le (by omega))] at bad
      cases bad
  | case2 base dst fits same ih => exact fun all => ih h fun e le lt => all e (by omega) lt
  | case3 => cases h

theorem scalarRounds_some {f1 f2 : Nat → Nat} {dim base : Nat} {dst dst' : Nat → Nat}
    (h : scalarRounds f1 f2 dim base dst = some dst') :
    Agree f1 f2 base dim ∧ dst' = storeWords f1 dst base (dim - base) := by
  fun_induction scalarRounds f1 f2 dim base dst with
  | case1 => cases h
  | case2 base dst fits same ih =>
      rw [Bool.not_eq_true, anySync_eq_false] at same
      have round := scalar_round.mp same
      obtain ⟨rest, stored⟩ := ih h
      refine ⟨fun e le lt => ?_, ?_⟩
      · by_cases first : e < base + 32
        · exact round e le (by omega)
        · exact rest e (by omega) lt
      · rw [stored]
        by_cases whole : 32 ≤ dim - base
        · rw [Nat.min_eq_left whole, storeWords_storeWords]
          congr 1
          omega
        · rw [Nat.min_eq_right (by omega), show dim - (base + 32) = 0 by omega, storeWords_zero]
  | case3 base dst rest =>
      obtain rfl := Option.some.inj h
      exact ⟨fun e le lt => by omega, by rw [show dim - base = 0 by omega, storeWords_zero]⟩

/-- The warp accepts exactly equal rows, and then the output row is snapshot 1. -/
theorem warpCompareAndCompact_eq (f1 f2 dst : Nat → Nat) (dim : Nat) :
    warpCompareAndCompact f1 f2 dst dim =
      if ∀ e < dim, f1 e = f2 e then some (storeWords f1 dst 0 dim) else none := by
  have agree : (∀ e < dim, f1 e = f2 e) ↔ Agree f1 f2 0 dim :=
    ⟨fun all e _ lt => all e lt, fun all e lt => all e (Nat.zero_le e) lt⟩
  have scalar : ∀ base dst, base ≤ dim → Agree f1 f2 0 base →
      scalarRounds f1 f2 dim base (storeWords f1 dst 0 base) =
        if ∀ e < dim, f1 e = f2 e then some (storeWords f1 dst 0 dim) else none := by
    intro base dst within before
    cases h : scalarRounds f1 f2 dim base (storeWords f1 dst 0 base) with
    | none =>
        have differ := scalarRounds_none h
        rw [if_neg fun all => differ fun e _ lt => all e lt]
    | some dst' =>
        obtain ⟨rest, stored⟩ := scalarRounds_some h
        rw [if_pos (agree.mpr ((Agree.append (Nat.zero_le _) within).mpr ⟨before, rest⟩)), stored]
        have := storeWords_storeWords f1 dst 0 base (dim - base)
        rw [Nat.zero_add, Nat.add_sub_cancel' within] at this
        rw [this]
  unfold warpCompareAndCompact
  split
  · have far : dim / 128 * 128 ≤ dim := Nat.div_mul_le_self dim 128
    cases hg : groupRounds f1 f2 (dim / 128) 0 dst with
    | none =>
        have differ := groupRounds_none hg
        rw [if_neg fun all => differ fun e _ lt => all e (by omega)]
        rfl
    | some grouped =>
        obtain ⟨r, dst₁⟩ := grouped
        obtain ⟨range, first, stored₁⟩ := groupRounds_some hg (Nat.zero_le _)
        change ((singleRounds f1 f2 (dim / 128) r dst₁).bind _) = _
        cases hs : singleRounds f1 f2 (dim / 128) r dst₁ with
        | none =>
            have differ := singleRounds_none hs
            rw [if_neg fun all => differ fun e _ lt => all e (by omega)]
            rfl
        | some dst₂ =>
            obtain ⟨second, stored₂⟩ := singleRounds_some hs range.2
            rw [Nat.zero_mul, Nat.sub_zero] at stored₁
            rw [Nat.zero_mul] at first
            have both := storeWords_storeWords f1 dst 0 (r * 128) ((dim / 128 - r) * 128)
            rw [Nat.zero_add, ← Nat.add_mul, Nat.add_sub_cancel' range.2] at both
            change scalarRounds f1 f2 dim (dim / 128 * 128) dst₂ = _
            rw [stored₂, stored₁, both]
            exact scalar _ dst far ((Agree.append (Nat.zero_le _) (by omega)).mpr ⟨first, second⟩)
  · have whole := scalar 0 dst (Nat.zero_le _) (.empty _ _ _)
    rwa [storeWords_zero] at whole

/-- Equal bytes are equal words. -/
theorem readLe_inj {a b : SlotBytes} {x n : Nat} :
    readLe a x n = readLe b x n ↔ ∀ i < n, a (x + i) = b (x + i) := by
  induction n generalizing x with
  | zero => exact ⟨fun _ i hi => absurd hi (Nat.not_lt_zero i), fun _ => rfl⟩
  | succ n ih =>
      simp only [readLe]
      have ha := (a x).toNat_lt
      have hb := (b x).toNat_lt
      constructor
      · intro same i hi
        have low : (a x).toNat = (b x).toNat := by omega
        have high : readLe a (x + 1) n = readLe b (x + 1) n := by omega
        cases i with
        | zero => exact UInt8.toNat_inj.mp low
        | succ i =>
            have byte := ih.mp high i (Nat.lt_of_succ_lt_succ hi)
            rwa [Nat.add_assoc, Nat.add_comm 1 i] at byte
      · intro same
        have low : a x = b x := same 0 (Nat.succ_pos n)
        have high := ih.mpr fun i hi => by
          have byte := same (i + 1) (Nat.succ_lt_succ hi)
          rwa [Nat.add_comm i 1, ← Nat.add_assoc] at byte
        rw [low, high]

theorem payloadBytes_eq {a b : SlotBytes} {dim : Nat} :
    payloadBytes a dim = payloadBytes b dim ↔
      ∀ e < dim, readLe a (featureSlotHeadBytes + e * 4) 4 =
        readLe b (featureSlotHeadBytes + e * 4) 4 := by
  simp only [payloadBytes, List.map_inj_left, List.mem_range, readLe_inj]
  constructor
  · intro bytes e he i hi
    have byte := bytes (e * 4 + i) (by omega)
    rwa [← Nat.add_assoc] at byte
  · intro words i hi
    have byte := words (i / 4) (by omega) (i % 4) (by omega)
    rwa [Nat.add_assoc, Nat.div_add_mod' i 4] at byte

/-- The kernel accepts a row exactly under the rule, and then compacts snapshot 1. -/
theorem validateRow_eq (a b : SlotBytes) (dim : Nat) (dst : Nat → Nat) :
    validateRow a b dim dst =
      if acceptSlots a b dim = true then
        some (storeWords (fun e => readLe a (featureSlotHeadBytes + e * 4) 4) dst 0 dim)
      else none := by
  simp only [validateRow, acceptSlots, acceptRow, featureTailOffset_eq, warpCompareAndCompact_eq,
    ← payloadBytes_eq, Bool.and_eq_true, decide_eq_true_eq]
  split
  · rename_i stable
    by_cases same : payloadBytes a dim = payloadBytes b dim
    · rw [if_pos same, if_pos ⟨stable, same⟩]
    · rw [if_neg same, if_neg fun h => same h.2]
  · rename_i torn
    rw [if_neg fun h => torn h.1]

def storeRow (payload : List Nat) : List RemoteEvent :=
  [.beginWrite payload] ++ (List.range payload.length).map .storeWord ++ [.storeTail, .storeHead]

/-- Word 0 is loaded before the write of version 4 and again after a third write has put
the same value back; everything else is loaded at version 4. -/
def mixedEvents : List RemoteEvent :=
  storeRow [5, 5] ++ [.loadFirst (.word 0)] ++ storeRow [7, 7] ++
  [.loadFirst (.word 1), .loadFirst .head, .loadFirst .tail] ++
  [.loadSecond .head, .loadSecond .tail, .loadSecond (.word 1)] ++
  [.beginWrite [5, 5], .storeWord 0, .loadSecond (.word 0)]

theorem mixedEvents_accepted : ((RemoteSlot.fresh 2).run mixedEvents).map (fun s =>
    (s.accepted, s.first.words, s.completed)) =
      some (true, [some 5, some 7], [[5, 5], [7, 7]]) := by decide +kernel

end AetherGraph
