import AetherGraph.Foundation.ByteFormat

/-! The bounds-checked little-endian cursor of the codec wire formats. -/

namespace AetherGraph

open Foundation

abbrev U8 := BitVec 8

abbrev U32 := BitVec 32

abbrev U64 := BitVec 64

/-- How a reader stops short: an error with its contexts, outermost first, or a panic. -/
inductive Failure where
  | error (chain : List String)
  | panic
  deriving DecidableEq, Repr

namespace Failure

def context (text : String) : Failure → Failure
  | .error chain => .error (text :: chain)
  | .panic => .panic

end Failure

abbrev ByteReader := Cursor U8

abbrev Parse := Reader Failure U8

def ensure (holds : Prop) [Decidable holds] (text : String) : Except Failure Unit :=
  if holds then .ok () else .error (.error [text])

namespace ByteReader

/-- A piece of the bytes.  An end that overflows lies past every slice. -/
def take (n : Nat) : Parse (List U8) := fun r =>
  if r.pos + n ≤ r.items.length then
    .ok ((r.items.drop r.pos).take n, { r with pos := r.pos + n })
  else .error (.error [s!"truncated: need {n} bytes at {r.pos}"])

def u32 : Parse U32 := (fun bytes => BitVec.ofNat 32 (ofLe bytes)) <$> take 4

def u64 : Parse U64 := (fun bytes => BitVec.ofNat 64 (ofLe bytes)) <$> take 8

def byteVec : Parse (List U8) := do
  let n ← u64
  take n.toNat

def u64Vec : Parse (List U64) := do
  let n ← u64
  StateT.lift (ensure (n.toNat * 8 < 2 ^ 64) "word count overflow")
  let raw ← take (n.toNat * 8)
  pure ((chunksExact 8 raw).map fun piece => BitVec.ofNat 64 (ofLe piece))

def withContext {α : Type} (text : String) (read : Parse α) : Parse α := fun r =>
  (read r).mapError (Failure.context text)

end ByteReader

section Write

def u32Bytes (x : U32) : List U8 := toLe 4 x.toNat

def u64Bytes (x : U64) : List U8 := toLe 8 x.toNat

/-- A length as the format stores it. -/
def lengthBytes (n : Nat) : List U8 := u64Bytes (BitVec.ofNat 64 n)

@[simp] theorem u32Bytes_length (x : U32) : (u32Bytes x).length = 4 := toLe_length 4 _

@[simp] theorem u64Bytes_length (x : U64) : (u64Bytes x).length = 8 := toLe_length 8 _

end Write

namespace ByteReader

variable {α : Type}

theorem take_reads (record : List U8) : Reads (take record.length) record record :=
  fun before after => by
    rw [List.append_assoc]
    show (if before.length + record.length ≤ (before ++ (record ++ after)).length then _ else _) = _
    rw [if_pos (by simp), List.drop_left, List.take_left]

theorem u32_ofBytes (x : U32) : BitVec.ofNat 32 (ofLe (u32Bytes x)) = x :=
  ofNat_ofLe_toLe (w := 32) (k := 4) rfl x

theorem u64_ofBytes (x : U64) : BitVec.ofNat 64 (ofLe (u64Bytes x)) = x :=
  ofNat_ofLe_toLe (w := 64) (k := 8) rfl x

theorem u32_reads (x : U32) : Reads u32 (u32Bytes x) x := by
  have bytes := (take_reads (u32Bytes x)).map fun bytes => BitVec.ofNat 32 (ofLe bytes)
  rwa [u32Bytes_length, u32_ofBytes] at bytes

theorem u64_reads (x : U64) : Reads u64 (u64Bytes x) x := by
  have bytes := (take_reads (u64Bytes x)).map fun bytes => BitVec.ofNat 64 (ofLe bytes)
  rwa [u64Bytes_length, u64_ofBytes] at bytes

theorem withContext_reads {read : Parse α} {record : List U8} {a : α} (text : String)
    (h : Reads read record a) : Reads (withContext text read) record a := fun before after => by
  have inner := h before after
  show (read _).mapError _ = _
  rw [show read _ = _ from inner]
  rfl

theorem ensure_ok {holds : Prop} [Decidable holds] (h : holds) (text : String) :
    ensure holds text = .ok () := if_pos h

theorem ensure_holds {holds : Prop} [Decidable holds] {text : String} {u : Unit}
    (h : ensure holds text = .ok u) : holds := by
  unfold ensure at h
  split at h
  · assumption
  · cases h

theorem ensure_bind_ok {holds : Prop} [Decidable holds] {text : String}
    {next : Unit → Except Failure α} {a : α} (h : (ensure holds text >>= next) = .ok a) :
    holds ∧ next () = .ok a := by
  unfold ensure at h
  split at h
  · rename_i passed
    exact ⟨passed, h⟩
  · cases h

theorem byteVec_reads {bytes : List U8} (small : bytes.length < 2 ^ 64) :
    Reads byteVec (lengthBytes bytes.length ++ bytes) bytes := by
  refine (u64_reads _).bind ?_
  rw [BitVec.toNat_ofNat, Nat.mod_eq_of_lt small]
  exact take_reads bytes

theorem u64Vec_reads {words : List U64} (small : words.length * 8 < 2 ^ 64) :
    Reads u64Vec (lengthBytes words.length ++ words.flatMap u64Bytes) words := by
  have each : ∀ word ∈ words, (u64Bytes word).length = 8 := fun word _ => u64Bytes_length word
  have length := flatMap_length each
  have back : (chunksExact 8 (words.flatMap u64Bytes)).map
      (fun piece => BitVec.ofNat 64 (ofLe piece)) = words := by
    rw [chunksExact_flatMap (by omega) each, List.map_map]
    conv_rhs => rw [← List.map_id words]
    exact List.map_congr_left fun word _ => u64_ofBytes word
  have count : (BitVec.ofNat 64 words.length).toNat = words.length := by
    rw [BitVec.toNat_ofNat, Nat.mod_eq_of_lt (by omega)]
  have raw : Reads (take (words.length * 8)) (words.flatMap u64Bytes) (words.flatMap u64Bytes) := by
    rw [← length]
    exact take_reads _
  refine (u64_reads (BitVec.ofNat 64 words.length)).bind ?_
  rw [count]
  refine Reads.check (ensure_ok small _) (raw.last ?_)
  rw [back]
  exact Reads.pure words

section Arbitrary

variable {r r' : ByteReader}

theorem take_ok {n : Nat} {piece : List U8} (h : (take n).run r = .ok (piece, r')) :
    r'.items = r.items ∧ piece.length = n ∧ n ≤ r.items.length := by
  change (if r.pos + n ≤ r.items.length then _ else _) = _ at h
  split at h
  · rename_i inside
    obtain ⟨rfl, rfl⟩ := Prod.mk.inj (Except.ok.inj h)
    refine ⟨rfl, ?_, by omega⟩
    rw [List.length_take, List.length_drop]
    omega
  · cases h

theorem map_take_items {n : Nat} {f : List U8 → α} {a : α}
    (h : (f <$> take n).run r = .ok (a, r')) : r'.items = r.items := by
  rw [StateT.run_map] at h
  cases ran : (take n).run r with
  | error e =>
      rw [ran] at h
      cases h
  | ok entry =>
      rw [ran] at h
      obtain ⟨-, rfl⟩ := Prod.mk.inj (Except.ok.inj h)
      exact (take_ok ran).1

theorem u32_items {x : U32} (h : u32.run r = .ok (x, r')) : r'.items = r.items := map_take_items h

theorem u64_items {x : U64} (h : u64.run r = .ok (x, r')) : r'.items = r.items := map_take_items h

/-- The words read fit into the bytes. -/
theorem u64Vec_ok {words : List U64} (h : u64Vec.run r = .ok (words, r')) :
    r'.items = r.items ∧ 8 * words.length ≤ r.items.length := by
  obtain ⟨n, mid, counted, h⟩ := run_bind_ok h
  obtain ⟨_, -, h⟩ := run_check_ok h
  obtain ⟨raw, last, taken, h⟩ := run_bind_ok h
  obtain ⟨rfl, rfl⟩ := Prod.mk.inj (Except.ok.inj h)
  obtain ⟨same, length, fits⟩ := take_ok taken
  rw [u64_items counted] at same fits
  refine ⟨same, ?_⟩
  rw [List.length_map, chunksExact, List.length_map, List.length_range, length]
  omega

theorem withContext_ok {text : String} {read : Parse α} {a : α}
    (h : (withContext text read).run r = .ok (a, r')) : read.run r = .ok (a, r') := by
  change (read r).mapError _ = _ at h
  change read r = _
  cases ran : read r with
  | error e =>
      rw [ran] at h
      cases h
  | ok entry =>
      rw [ran] at h
      rw [Except.ok.inj h]

end Arbitrary

section NoPanic

theorem ensure_avoids {holds : Prop} [Decidable holds] {text : String} :
    ensure holds text ≠ .error .panic := by
  unfold ensure
  split <;> exact nofun

theorem ensure_bind_avoids {holds : Prop} [Decidable holds] {text : String}
    {next : Unit → Except Failure α} (rest : next () ≠ .error .panic) :
    (ensure holds text >>= next) ≠ .error .panic := by
  unfold ensure
  split
  · exact rest
  · exact nofun

theorem take_avoids (n : Nat) : Avoids .panic (take n) := fun r => by
  show (if r.pos + n ≤ r.items.length then _ else _) ≠ _
  split <;> exact nofun

theorem u32_avoids : Avoids .panic u32 := (take_avoids 4).map _

theorem u64_avoids : Avoids .panic u64 := (take_avoids 8).map _

theorem byteVec_avoids : Avoids .panic byteVec := u64_avoids.bind fun n => take_avoids n.toNat

theorem u64Vec_avoids : Avoids .panic u64Vec :=
  u64_avoids.bind fun _ => Avoids.check ensure_avoids fun _ _ =>
    (take_avoids _).bind fun _ => Avoids.pure _

theorem withContext_avoids {read : Parse α} (text : String) (h : Avoids .panic read) :
    Avoids .panic (withContext text read) := fun r => by
  show (read r).mapError _ ≠ _
  cases ran : read r with
  | ok entry => exact nofun
  | error e =>
      cases e with
      | error chain => exact nofun
      | panic => exact absurd ran (h r)

end NoPanic

end ByteReader

end AetherGraph
