import Mathlib.Algebra.GroupWithZero.Nat
import Mathlib.Data.List.Basic

/-! Philox4x32-10 as the host and as the device compute it, and the reservoir the host draws
with it. -/

namespace AetherGraph

namespace Philox

def m0 : UInt32 := 0xD2511F53
def m1 : UInt32 := 0xCD9E8D57
def w0 : UInt32 := 0x9E3779B9
def w1 : UInt32 := 0xBB67AE85

/-- The host's counter and key arrays. -/
structure HostState where
  counter : UInt32 × UInt32 × UInt32 × UInt32
  key : UInt32 × UInt32

def hostRound (s : HostState) (round : Nat) : HostState :=
  let (c0, c1, c2, c3) := s.counter
  let (k0, k1) := s.key
  let hi0 := ((c0.toUInt64 * m0.toUInt64) >>> 32).toUInt32
  let lo0 := c0 * m0
  let hi1 := ((c2.toUInt64 * m1.toUInt64) >>> 32).toUInt32
  let lo1 := c2 * m1
  ⟨(hi1 ^^^ c1 ^^^ k0, lo1, hi0 ^^^ c3 ^^^ k1, lo0),
    if round ≠ 9 then (k0 + w0, k1 + w1) else (k0, k1)⟩

/-- The registers of the device's loop. -/
structure Registers where
  c0 : UInt32
  c1 : UInt32
  c2 : UInt32
  c3 : UInt32
  k0 : UInt32
  k1 : UInt32

/-- `__umulhi`: the high word of the 64-bit product. -/
def umulhi (a b : UInt32) : UInt32 := UInt32.ofNat (a.toNat * b.toNat / 2 ^ 32)

def deviceRound (s : Registers) (round : Nat) : Registers :=
  let hi0 := umulhi s.c0 m0
  let lo0 := s.c0 * m0
  let hi1 := umulhi s.c2 m1
  let lo1 := s.c2 * m1
  let next0 := hi1 ^^^ s.c1 ^^^ s.k0
  let next2 := hi0 ^^^ s.c3 ^^^ s.k1
  let s := { s with c0 := next0, c1 := lo1, c2 := next2, c3 := lo0 }
  if round ≠ 9 then { s with k0 := s.k0 + w0, k1 := s.k1 + w1 } else s

def HostState.registers (s : HostState) : Registers :=
  ⟨s.counter.1, s.counter.2.1, s.counter.2.2.1, s.counter.2.2.2, s.key.1, s.key.2⟩

theorem umulhi_eq (a b : UInt32) : ((a.toUInt64 * b.toUInt64) >>> 32).toUInt32 = umulhi a b := by
  apply UInt32.toNat.inj
  have ha := a.toNat_lt
  have hb := b.toNat_lt
  have small : a.toNat * b.toNat < 2 ^ 64 := by
    calc a.toNat * b.toNat < 2 ^ 32 * 2 ^ 32 := Nat.mul_lt_mul'' ha hb
      _ = 2 ^ 64 := by decide
  rw [umulhi, UInt64.toNat_toUInt32, UInt64.toNat_shiftRight, UInt64.toNat_mul,
    UInt32.toNat_toUInt64, UInt32.toNat_toUInt64, Nat.mod_eq_of_lt small, UInt32.toNat_ofNat']
  rw [Nat.shiftRight_eq_div_pow]
  rfl

theorem hostRound_registers (s : HostState) (round : Nat) :
    (hostRound s round).registers = deviceRound s.registers round := by
  simp only [hostRound, deviceRound, HostState.registers, umulhi_eq]
  split <;> rfl

end Philox

open Philox

def philox4x32_10Draw (seed : UInt64) (layer : UInt32) (node : UInt64) (drawGroup : UInt32) :
    UInt32 × UInt32 × UInt32 × UInt32 :=
  ((List.range 10).foldl hostRound
    ⟨(node.toUInt32, (node >>> 32).toUInt32, layer, drawGroup),
      (seed.toUInt32, (seed >>> 32).toUInt32)⟩).counter

def philoxU32 (seed : UInt64) (layer : UInt32) (node : UInt64) (drawIndex : UInt32) : UInt32 :=
  let (r0, r1, r2, r3) := philox4x32_10Draw seed layer node (drawIndex >>> 2)
  match (drawIndex &&& 3).toNat with
  | 1 => r1
  | 2 => r2
  | 3 => r3
  | _ => r0

/-- The device's `uint4`. -/
structure Uint4 where
  x : UInt32
  y : UInt32
  z : UInt32
  w : UInt32

def aetherPhilox4x32_10 (seed : UInt64) (layer : UInt32) (node : UInt64) (drawGroup : UInt32) :
    Uint4 :=
  let s := (List.range 10).foldl deviceRound
    ⟨node.toUInt32, (node >>> 32).toUInt32, layer, drawGroup, seed.toUInt32,
      (seed >>> 32).toUInt32⟩
  ⟨s.c0, s.c1, s.c2, s.c3⟩

def aetherPhiloxU32 (seed : UInt64) (layer : UInt32) (node : UInt64) (drawIndex : UInt32) :
    UInt32 :=
  let r := aetherPhilox4x32_10 seed layer node (drawIndex >>> 2)
  match (drawIndex &&& 3).toNat with
  | 1 => r.y
  | 2 => r.z
  | 3 => r.w
  | _ => r.x

theorem foldl_registers (rounds : List Nat) (s : HostState) :
    (rounds.foldl hostRound s).registers = rounds.foldl deviceRound s.registers := by
  induction rounds generalizing s with
  | nil => rfl
  | cons round rounds ih => rw [List.foldl_cons, List.foldl_cons, ih, hostRound_registers]

theorem aetherPhiloxU32_eq (seed : UInt64) (layer : UInt32) (node : UInt64) (drawIndex : UInt32) :
    aetherPhiloxU32 seed layer node drawIndex = philoxU32 seed layer node drawIndex := by
  have same : _ = (List.range 10).foldl deviceRound ⟨node.toUInt32, (node >>> 32).toUInt32, layer,
      drawIndex >>> 2, seed.toUInt32, (seed >>> 32).toUInt32⟩ :=
    foldl_registers (List.range 10)
      ⟨(node.toUInt32, (node >>> 32).toUInt32, layer, drawIndex >>> 2),
        (seed.toUInt32, (seed >>> 32).toUInt32)⟩
  have device : aetherPhilox4x32_10 seed layer node (drawIndex >>> 2) =
      let (r0, r1, r2, r3) := philox4x32_10Draw seed layer node (drawIndex >>> 2)
      ⟨r0, r1, r2, r3⟩ := by
    unfold aetherPhilox4x32_10
    rw [← same]
    rfl
  rw [aetherPhiloxU32, device]
  rfl

-- Random123's known answer for the zero key and counter
example : philox4x32_10Draw 0 0 0 0 = (0x6627e8d5, 0xe169c58d, 0xbc57ac4c, 0x9b00dbd8) := by
  decide +kernel

/-- Algorithm R over the neighbors in order; position `t` draws below `t + 1`. -/
def reservoirStep (fanout : Nat) (seed : UInt64) (layer : UInt32) (node : UInt64)
    (reservoir : List UInt32) (entry : UInt32 × Nat) : List UInt32 :=
  let (candidate, t) := entry
  let r := philoxU32 seed layer node (UInt32.ofNat t)
  let j := r.toNat % (t + 1)
  if j < fanout then reservoir.set j candidate else reservoir

def reservoirSample (neighbors : List UInt32) (fanout : Nat) (seed : UInt64) (layer : UInt32)
    (node : UInt64) : List UInt32 :=
  let degree := neighbors.length
  if degree = 0 ∨ fanout = 0 then []
  else if degree ≤ fanout then neighbors
  else (neighbors.zipIdx.drop fanout).foldl (reservoirStep fanout seed layer node)
    (neighbors.take fanout)

theorem reservoirStep_length (fanout : Nat) (seed : UInt64) (layer : UInt32) (node : UInt64)
    (reservoir : List UInt32) (entry : UInt32 × Nat) :
    (reservoirStep fanout seed layer node reservoir entry).length = reservoir.length := by
  rw [reservoirStep]
  split
  · exact List.length_set
  · rfl

theorem reservoirSample_length (neighbors : List UInt32) (fanout : Nat) (seed : UInt64)
    (layer : UInt32) (node : UInt64) :
    (reservoirSample neighbors fanout seed layer node).length = min neighbors.length fanout := by
  rw [reservoirSample]
  split
  · rename_i none
    rw [List.length_nil]
    omega
  split
  · rename_i all
    exact (Nat.min_eq_left all).symm
  · rename_i more
    generalize neighbors.zipIdx.drop fanout = entries
    have first : (neighbors.take fanout).length = min neighbors.length fanout := by
      rw [List.length_take, Nat.min_comm]
    rw [← first]
    generalize neighbors.take fanout = reservoir
    induction entries generalizing reservoir with
    | nil => rfl
    | cons entry entries ih => rw [List.foldl_cons, ih, reservoirStep_length]

end AetherGraph
