import Mathlib.Algebra.GroupWithZero.Nat
import Mathlib.Data.List.Basic

/-! Binary formats: little-endian numbers, sections of equally long pieces, and readers over a
cursor with the law that a reader takes exactly the record written for its value. -/

namespace Foundation

abbrev Byte := BitVec 8

section LittleEndian

def toLe : Nat → Nat → List Byte
  | 0, _ => []
  | k + 1, n => BitVec.ofNat 8 n :: toLe k (n / 256)

def ofLe : List Byte → Nat
  | [] => 0
  | b :: bs => b.toNat + 256 * ofLe bs

theorem ofLe_lt (bytes : List Byte) : ofLe bytes < 256 ^ bytes.length := by
  induction bytes with
  | nil => exact Nat.one_pos
  | cons b bs ih =>
      have low := b.isLt
      rw [ofLe, List.length_cons, Nat.pow_succ]
      omega

@[simp] theorem toLe_length (k n : Nat) : (toLe k n).length = k := by
  induction k generalizing n with
  | zero => rfl
  | succ k ih => rw [toLe, List.length_cons, ih]

theorem ofLe_toLe (k n : Nat) : ofLe (toLe k n) = n % 256 ^ k := by
  induction k generalizing n with
  | zero => exact (Nat.mod_one n).symm
  | succ k ih =>
      have mod := Nat.mod_mul (x := n) (a := 256) (b := 256 ^ k)
      have power : 256 ^ (k + 1) = 256 * 256 ^ k := by rw [Nat.pow_succ, Nat.mul_comm]
      rw [toLe, ofLe, ih, BitVec.toNat_ofNat, power, mod]

theorem ofLe_toLe_of_lt {k n : Nat} (h : n < 256 ^ k) : ofLe (toLe k n) = n := by
  rw [ofLe_toLe, Nat.mod_eq_of_lt h]

theorem ofNat_ofLe_toLe {w k : Nat} (width : w = 8 * k) (x : BitVec w) :
    BitVec.ofNat w (ofLe (toLe k x.toNat)) = x := by
  have bound := x.isLt
  subst width
  rw [ofLe_toLe_of_lt (by rwa [show 256 = 2 ^ 8 from rfl, ← Nat.pow_mul]), BitVec.ofNat_toNat,
    BitVec.setWidth_eq]

end LittleEndian

section Pieces

variable {α β : Type}

/-- The whole pieces of length `k`, a shorter rest dropped. -/
def chunksExact (k : Nat) (xs : List β) : List (List β) :=
  (List.range (xs.length / k)).map fun i => (xs.drop (i * k)).take k

theorem flatMap_length {k : Nat} {enc : α → List β} {as : List α}
    (each : ∀ a ∈ as, (enc a).length = k) : (as.flatMap enc).length = as.length * k := by
  induction as with
  | nil => exact (Nat.zero_mul k).symm
  | cons a as ih =>
      rw [List.flatMap_cons, List.length_append, each a List.mem_cons_self,
        ih fun b hb => each b (List.mem_cons_of_mem a hb), List.length_cons, Nat.succ_mul,
        Nat.add_comm]

/-- A piece stands behind the pieces before it. -/
theorem take_drop_pieces (enc : α → List β) {as : List α} {i : Nat} {a : α}
    (at_ : as[i]? = some a) :
    ((as.flatMap enc).drop ((as.take i).flatMap enc).length).take (enc a).length = enc a := by
  obtain ⟨inside, rfl⟩ := List.getElem?_eq_some_iff.mp at_
  have split : as.flatMap enc =
      (as.take i).flatMap enc ++ (enc as[i] ++ (as.drop (i + 1)).flatMap enc) := by
    rw [← List.flatMap_cons, ← List.drop_eq_getElem_cons inside, ← List.flatMap_append,
      List.take_append_drop]
  rw [split, List.drop_left, List.take_left]

theorem take_drop_flatMap {k : Nat} {enc : α → List β} {as : List α} {i : Nat} {a : α}
    (each : ∀ a ∈ as, (enc a).length = k) (at_ : as[i]? = some a) :
    ((as.flatMap enc).drop (i * k)).take k = enc a := by
  obtain ⟨inside, -⟩ := List.getElem?_eq_some_iff.mp at_
  have before : ((as.take i).flatMap enc).length = i * k := by
    rw [flatMap_length fun b hb => each b (List.mem_of_mem_take hb), List.length_take,
      Nat.min_eq_left (Nat.le_of_lt inside)]
  have piece := take_drop_pieces enc at_
  rwa [before, each a (List.mem_of_getElem? at_)] at piece

/-- Whole pieces one after another are the list's front. -/
theorem flatMap_range_pieces (k m : Nat) (xs : List β) :
    ((List.range m).flatMap fun i => (xs.drop (i * k)).take k) = xs.take (m * k) := by
  induction m with
  | zero => rw [Nat.zero_mul, List.take_zero, List.range_zero, List.flatMap_nil]
  | succ m ih =>
      rw [List.range_succ, List.flatMap_append, List.flatMap_singleton, ih, Nat.succ_mul,
        List.take_add]

/-- Pieces written one after another split again. -/
theorem chunksExact_flatMap {k : Nat} (positive : 0 < k) {enc : α → List β} {as : List α}
    (each : ∀ a ∈ as, (enc a).length = k) : chunksExact k (as.flatMap enc) = as.map enc := by
  rw [chunksExact, flatMap_length each, Nat.mul_div_cancel _ positive]
  refine List.ext_getElem? fun i => ?_
  rw [List.getElem?_map, List.getElem?_map]
  rcases Nat.lt_or_ge i as.length with inside | outside
  · have at_ := List.getElem?_eq_getElem inside
    rw [List.getElem?_range inside, at_, Option.map_some, Option.map_some,
      take_drop_flatMap each at_]
  · rw [List.getElem?_eq_none (by rwa [List.length_range]), List.getElem?_eq_none outside]
    rfl

/-- Behind whole pieces the rest splits by itself. -/
theorem chunksExact_append {k len : Nat} (positive : 0 < k) {xs ys : List β}
    (whole : xs.length = len * k) :
    chunksExact k (xs ++ ys) = chunksExact k xs ++ chunksExact k ys := by
  unfold chunksExact
  rw [List.length_append, whole, Nat.mul_comm len k, Nat.mul_add_div positive,
    Nat.mul_div_cancel_left _ positive, List.range_add, List.map_append, List.map_map]
  congr 1
  · refine List.map_congr_left fun i inside => ?_
    have within : i * k + k ≤ xs.length := by
      rw [whole, ← Nat.succ_mul]
      exact Nat.mul_le_mul_right k (List.mem_range.mp inside)
    rw [List.drop_append_of_le_length (by omega), List.take_append_of_le_length]
    rw [List.length_drop]
    omega
  · refine List.map_congr_left fun i _ => ?_
    rw [Function.comp_apply, Nat.add_mul, ← whole, List.drop_length_add_append]

/-- A prefix of equally long pieces is the whole pieces it reaches over and a shorter rest. -/
theorem prefix_flatMap {k : Nat} (positive : 0 < k) {enc : α → List β} {as : List α}
    (each : ∀ a ∈ as, (enc a).length = k) {front : List β} (h : front <+: as.flatMap enc) :
    ∃ rest, front = (as.take (front.length / k)).flatMap enc ++ rest ∧ rest.length < k := by
  induction as generalizing front with
  | nil =>
      obtain rfl := List.prefix_nil.mp h
      exact ⟨[], by simp, positive⟩
  | cons a as ih =>
      have length := each a List.mem_cons_self
      rw [List.flatMap_cons] at h
      rcases Nat.lt_or_ge front.length k with short | long
      · exact ⟨front, by simp [Nat.div_eq_of_lt short], short⟩
      · obtain ⟨front', rfl⟩ : enc a <+: front :=
          List.prefix_of_prefix_length_le (List.prefix_append _ _) h (length ▸ long)
        obtain ⟨rest, same, short⟩ := ih (fun b hb => each b (List.mem_cons_of_mem a hb))
          ((List.prefix_append_right_inj _).mp h)
        refine ⟨rest, ?_, short⟩
        rw [List.length_append, length, Nat.add_div_left _ positive, List.take_succ_cons,
          List.flatMap_cons, List.append_assoc, ← same]

end Pieces

section Readers

structure Cursor (β : Type) where
  items : List β
  pos : Nat

variable {α β γ ε : Type}

abbrev Reader (ε β α : Type) := StateT (Cursor β) (Except ε) α

/-- The reader takes the record, wherever it stands, for the value. -/
def Reads (read : Reader ε β α) (record : List β) (a : α) : Prop :=
  ∀ before after, read.run ⟨before ++ record ++ after, before.length⟩ =
    .ok (a, ⟨before ++ record ++ after, before.length + record.length⟩)

theorem Reads.pure (a : α) : Reads (ε := ε) (β := β) (Pure.pure a) [] a := fun _ _ => rfl

theorem Reads.bind {read : Reader ε β α} {next : α → Reader ε β γ} {record rest : List β} {a : α}
    {c : γ} (first : Reads read record a) (second : Reads (next a) rest c) :
    Reads (read >>= next) (record ++ rest) c := fun before after => by
  have one := first before (rest ++ after)
  have two := second (before ++ record) after
  rw [StateT.run_bind]
  simp only [List.append_assoc, List.length_append, Nat.add_assoc] at one two ⊢
  rw [one]
  exact two

theorem Reads.map {read : Reader ε β α} {record : List β} {a : α} (f : α → γ)
    (h : Reads read record a) : Reads (f <$> read) record (f a) := fun before after => by
  rw [StateT.run_map, h before after]
  rfl

/-- A check that passes takes nothing. -/
theorem Reads.check {check : Except ε α} {a : α} (passed : check = .ok a) {next : α → Reader ε β γ}
    {record : List β} {c : γ} (rest : Reads (next a) record c) :
    Reads (StateT.lift check >>= next) record c := fun before after => by
  rw [passed]
  exact rest before after

/-- The last record read. -/
theorem Reads.last {read : Reader ε β α} {next : α → Reader ε β γ} {record : List β} {a : α} {c : γ}
    (first : Reads read record a) (second : Reads (next a) [] c) :
    Reads (read >>= next) record c := by
  have both := first.bind second
  rwa [List.append_nil] at both

/-- A record read from its first byte on. -/
theorem Reads.run_zero {read : Reader ε β α} {record : List β} {a : α} (h : Reads read record a)
    (after : List β) :
    read.run ⟨record ++ after, 0⟩ = .ok (a, ⟨record ++ after, record.length⟩) := by
  have := h [] after
  rwa [List.nil_append, List.length_nil, Nat.zero_add] at this

/-- `n` records in a row. -/
def readMany (read : Reader ε β α) : Nat → Reader ε β (List α)
  | 0 => Pure.pure []
  | n + 1 => do
      let a ← read
      let rest ← readMany read n
      Pure.pure (a :: rest)

theorem Reads.many {read : Reader ε β α} {record : α → List β} {as : List α}
    (each : ∀ a ∈ as, Reads read (record a) a) :
    Reads (readMany read as.length) (as.flatMap record) as := by
  induction as with
  | nil => exact Reads.pure []
  | cons a as ih =>
      rw [List.flatMap_cons]
      exact (each a List.mem_cons_self).bind
        ((ih fun b hb => each b (List.mem_cons_of_mem a hb)).last (Reads.pure _))

theorem run_bind_of {read : Reader ε β α} {next : α → Reader ε β γ} {s s' : Cursor β} {a : α}
    (h : read.run s = .ok (a, s')) : (read >>= next).run s = (next a).run s' := by
  rw [StateT.run_bind, h]
  rfl

theorem run_lift_of {check : Except ε α} {a : α} (h : check = .ok a) (s : Cursor β) :
    (StateT.lift check : Reader ε β α).run s = .ok (a, s) := by
  rw [h]
  rfl

theorem run_bind_ok {read : Reader ε β α} {next : α → Reader ε β γ} {s s' : Cursor β} {c : γ}
    (h : (read >>= next).run s = .ok (c, s')) :
    ∃ a mid, read.run s = .ok (a, mid) ∧ (next a).run mid = .ok (c, s') := by
  rw [StateT.run_bind] at h
  cases first : read.run s with
  | error e =>
      rw [first] at h
      cases h
  | ok entry =>
      rw [first] at h
      exact ⟨entry.1, entry.2, rfl, h⟩

theorem run_check_ok {check : Except ε α} {next : α → Reader ε β γ} {s s' : Cursor β} {c : γ}
    (h : (StateT.lift check >>= next).run s = .ok (c, s')) :
    ∃ a, check = .ok a ∧ (next a).run s = .ok (c, s') := by
  cases passed : check with
  | error e =>
      rw [passed] at h
      cases h
  | ok a =>
      rw [passed] at h
      exact ⟨a, rfl, h⟩

/-- The reader never stops with the failure `bad`. -/
def Avoids (bad : ε) (read : Reader ε β α) : Prop := ∀ s, read.run s ≠ .error bad

variable {bad : ε}

theorem Avoids.pure (a : α) : Avoids bad (Pure.pure a : Reader ε β α) := fun _ => nofun

theorem Avoids.bind {read : Reader ε β α} {next : α → Reader ε β γ} (first : Avoids bad read)
    (second : ∀ a, Avoids bad (next a)) : Avoids bad (read >>= next) := fun s => by
  rw [StateT.run_bind]
  cases ran : read.run s with
  | error e =>
      intro stopped
      rw [show e = bad from Except.error.inj stopped] at ran
      exact first s ran
  | ok entry => exact second entry.1 entry.2

theorem Avoids.map {read : Reader ε β α} (f : α → γ) (h : Avoids bad read) :
    Avoids bad (f <$> read) := fun s => by
  rw [StateT.run_map]
  cases ran : read.run s with
  | error e =>
      intro stopped
      rw [show e = bad from Except.error.inj stopped] at ran
      exact h s ran
  | ok entry => exact nofun

/-- Behind a check, only what passes it has to avoid the failure. -/
theorem Avoids.check {check : Except ε α} {next : α → Reader ε β γ} (fails : check ≠ .error bad)
    (rest : ∀ a, check = .ok a → Avoids bad (next a)) :
    Avoids bad (StateT.lift check >>= next) := fun s => by
  cases passed : check with
  | error e =>
      intro stopped
      rw [show e = bad from Except.error.inj stopped] at passed
      exact fails passed
  | ok a => exact rest a passed s

end Readers

end Foundation
