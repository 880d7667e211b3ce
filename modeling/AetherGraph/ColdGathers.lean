import AetherGraph.ColdTier
import AetherGraph.Foundation.SortedList

/-! Gathers from the cold tier by any number of threads. They share the list of recent blocks,
which a gather consults and refills in separate lock sections. -/

namespace AetherGraph

open Foundation

section Recent

/-- `recent_block`: a copy of the block, moved to the newest place. -/
def recentBlock (recent : List (Nat × List U8)) (block : Nat) :
    Option (List U8 × List (Nat × List U8)) := do
  let pos ← recent.findIdx? fun entry => entry.1 == block
  let entry ← recent[pos]?
  pure (entry.2, recent.eraseIdx pos ++ [entry])

/-- `remember_block`: the newest entry unless another gather was first. -/
def rememberBlock (recent : List (Nat × List U8)) (block : Nat) (raw : List U8) :
    List (Nat × List U8) :=
  if recent.any fun entry => entry.1 == block then recent
  else (if recent.length = recentBlocks then recent.tail else recent) ++ [(block, raw)]

/-- At most `RECENT_BLOCKS` entries, one for a block, each with the block's raw bytes. -/
structure Recent (tier : ColdTier) (payload : List U8) (recent : List (Nat × List U8)) : Prop where
  length_le : recent.length ≤ recentBlocks
  nodup : (recent.map Prod.fst).Nodup
  raw : ∀ entry ∈ recent,
    entry.1 < tier.blocks.length ∧ entry.2 = blockOf payload tier.rowBytes entry.1

variable {tier : ColdTier} {payload : List U8} {recent : List (Nat × List U8)} {block : Nat}

theorem recentBlock_some {raw : List U8} {recent' : List (Nat × List U8)}
    (hit : recentBlock recent block = some (raw, recent')) :
    (block, raw) ∈ recent ∧ recent'.Perm recent := by
  obtain ⟨pos, found, hit⟩ := Option.bind_eq_some_iff.mp hit
  obtain ⟨entry, at_, hit⟩ := Option.bind_eq_some_iff.mp hit
  obtain ⟨rfl, rfl⟩ := Prod.mk.inj (Option.some.inj hit)
  obtain ⟨inside, same, -⟩ := List.findIdx?_eq_some_iff_getElem.mp found
  obtain ⟨_, value⟩ := List.getElem?_eq_some_iff.mp at_
  rw [value, beq_iff_eq] at same
  refine ⟨same ▸ List.mem_of_getElem? at_, ?_⟩
  rw [← value]
  exact (List.perm_append_comm).trans (List.getElem_cons_eraseIdx_perm inside)

theorem Recent.hit (h : Recent tier payload recent) {raw : List U8}
    {recent' : List (Nat × List U8)} (hit : recentBlock recent block = some (raw, recent')) :
    raw = blockOf payload tier.rowBytes block ∧ Recent tier payload recent' := by
  obtain ⟨mem, perm⟩ := recentBlock_some hit
  refine ⟨(h.raw _ mem).2, perm.length_eq ▸ h.length_le, (perm.map _).nodup_iff.mpr h.nodup, ?_⟩
  exact fun entry held => h.raw entry (perm.mem_iff.mp held)

theorem Recent.remember (h : Recent tier payload recent) (inside : block < tier.blocks.length) :
    Recent tier payload (rememberBlock recent block (blockOf payload tier.rowBytes block)) := by
  unfold rememberBlock
  by_cases held : recent.any fun entry => entry.1 == block
  · rw [if_pos held]
    exact h
  · rw [if_neg held]
    have absent : ∀ entry ∈ recent, entry.1 ≠ block := fun entry mem same =>
      held (List.any_eq_true.mpr ⟨entry, mem, beq_iff_eq.mpr same⟩)
    generalize kept : (if recent.length = recentBlocks then recent.tail else recent) = front
    have sub : front.Sublist recent := by
      rw [← kept]
      split_ifs
      · exact List.tail_sublist recent
      · exact List.Sublist.refl recent
    have room : front.length < recentBlocks := by
      have bound := h.length_le
      rw [← kept]
      split_ifs with full
      · rw [List.length_tail, full]
        decide
      · exact Nat.lt_of_le_of_ne bound full
    refine ⟨?_, ?_, fun entry mem => ?_⟩
    · rw [List.length_append]
      exact room
    · rw [List.map_append]
      refine List.nodup_append.mpr ⟨h.nodup.sublist (sub.map _), List.nodup_singleton _, ?_⟩
      intro key mem key' mem'
      obtain ⟨entry, held, rfl⟩ := List.mem_map.mp mem
      rw [List.mem_singleton.mp mem']
      exact absent entry (sub.subset held)
    · rcases List.mem_append.mp mem with old | new
      · exact h.raw entry (sub.subset old)
      · obtain rfl := List.mem_singleton.mp new
        exact ⟨inside, rfl⟩

end Recent

/-- A gather in a thread: the request, the blocks still to fetch, the decoder once bound, the blocks
at hand, and the next block's raw bytes between its decompression and their place in the list. -/
structure Gather where
  rows : List U32
  needed : List Nat
  decoder : Option (List U8 → Nat → Option (List U8))
  cache : Nat → Option (List U8)
  fresh : Option (List U8)

namespace ColdTier

variable (tier : ColdTier) (z : Zstd)

/-- What `gather_rows` does before its first lock: it returns at once, or it has blocks to fetch. -/
def startGather (rows : List U32) : Gather ⊕ Except Failure (List U8) :=
  if rows = [] then .inr (.ok [])
  else
    match rows.find? fun row => decide (tier.numRows ≤ row.toNat) with
    | some row => .inr (.error (.error
        [s!"row {row.toNat} out of range (num_rows={tier.numRows})"]))
    | none =>
        let needed := sortDedup (rows.map fun row => row.toNat / rowsPerBlock)
        .inl ⟨rows, needed, none, fun _ => none, none⟩

/-- A row's slice of its block, into the row's own place.  A slice that is not there is a panic. -/
def copyRow (cache : Nat → Option (List U8)) (out : List U8) (entry : U32 × Nat) :
    Option (List U8) := do
  let row := entry.1.toNat
  let decompressed ← cache (row / rowsPerBlock)
  let src ← sliceExact decompressed (row % rowsPerBlock * tier.rowBytes) tier.rowBytes
  pure (writeAt out (entry.2 * tier.rowBytes) src)

def copyRows (cache : Nat → Option (List U8)) (rows : List U32) : Option (List U8) :=
  rows.zipIdx.foldlM (tier.copyRow cache) (List.replicate (rows.length * tier.rowBytes) 0)

/-- What a thread does between two lock sections and in the second of them. -/
def stepGather (recent : List (Nat × List U8)) (g : Gather) :
    List (Nat × List U8) × (Gather ⊕ Except Failure (List U8)) :=
  match g.needed with
  | [] => (recent, .inr ((tier.copyRows g.cache g.rows).elim (.error .panic) .ok))
  | block :: needed =>
      match g.fresh with
      | some raw =>
          (rememberBlock recent block raw, .inl { g with
            needed := needed
            cache := Function.update g.cache block (some raw)
            fresh := none })
      | none =>
          match recentBlock recent block with
          | some (raw, recent) =>
              (recent, .inl { g with
                needed := needed
                cache := Function.update g.cache block (some raw) })
          | none =>
              match tier.bindDecoder z g.decoder with
              | .error e => (recent, .inr (.error e))
              | .ok decoder =>
                  match tier.decompressBlock z decoder block with
                  | .error e => (recent, .inr (.error e))
                  | .ok raw => (recent, .inl { g with decoder := decoder, fresh := some raw })


end ColdTier

/-- A row's raw bytes. -/
def rowOf (payload : List U8) (rowBytes : Nat) (row : U32) : List U8 :=
  (payload.drop (row.toNat * rowBytes)).take rowBytes

/-- What a gather is to return: the raw rows in request order, or the error of a row that is not
there. -/
def AnsweredAs (tier : ColdTier) (payload : List U8) (rows : List U32)
    (result : Except Failure (List U8)) : Prop :=
  ((∀ row ∈ rows, row.toNat < tier.numRows) ∧
      result = .ok (rows.flatMap (rowOf payload tier.rowBytes))) ∨
    ∃ row ∈ rows, tier.numRows ≤ row.toNat ∧ result = .error (.error
      [s!"row {row.toNat} out of range (num_rows={tier.numRows})"])

/-- Lock sections a gather still has before it, its return counted as one. -/
def Gather.left (g : Gather) : Nat := 2 * g.needed.length + 1 - if g.fresh.isSome then 1 else 0

/-- A gather under way: every row of it in range, its block at hand or still to fetch. -/
structure Gather.Ok (tier : ColdTier) (z : Zstd) (payload : List U8) (g : Gather) : Prop where
  inside : ∀ row ∈ g.rows, row.toNat < tier.numRows
  needed : ∀ block ∈ g.needed, block < numBlocks tier.numRows
  covered : ∀ row ∈ g.rows, row.toNat / rowsPerBlock ∈ g.needed ∨
    g.cache (row.toNat / rowsPerBlock) =
      some (blockOf payload tier.rowBytes (row.toNat / rowsPerBlock))
  decoder : g.decoder = none ∨ Bound z tier g.decoder
  fresh : ∀ raw block rest, g.fresh = some raw → g.needed = block :: rest →
    raw = blockOf payload tier.rowBytes block

section Gather

variable {tier : ColdTier} {z : Zstd} {payload : List U8} {rows : List U32}

theorem block_inside {numRows row : Nat} (inside : row < numRows) :
    row / rowsPerBlock < numBlocks numRows := by
  unfold numBlocks rowsPerBlock
  omega

theorem startGather_cases (tier : ColdTier) (z : Zstd) (payload : List U8) (rows : List U32) :
    (∃ g, tier.startGather rows = .inl g ∧ g.Ok tier z payload ∧ g.rows = rows) ∨
      ∃ result, tier.startGather rows = .inr result ∧ AnsweredAs tier payload rows result := by
  unfold ColdTier.startGather
  by_cases empty : rows = []
  · refine .inr ⟨.ok [], if_pos empty, .inl ⟨fun row mem => ?_, ?_⟩⟩
    · rw [empty] at mem
      cases mem
    · rw [empty]
      rfl
  · rw [if_neg empty]
    cases found : rows.find? fun row => decide (tier.numRows ≤ row.toNat) with
    | some row =>
        refine .inr ⟨_, rfl, .inr ⟨row, List.mem_of_find?_eq_some found, ?_, rfl⟩⟩
        exact of_decide_eq_true (List.find?_some (p := fun row : U32 =>
          decide (tier.numRows ≤ row.toNat)) found)
    | none =>
        have inside : ∀ row ∈ rows, row.toNat < tier.numRows := fun row mem => by
          have := List.find?_eq_none.mp found row mem
          rw [decide_eq_true_eq] at this
          omega
        refine .inl ⟨_, rfl,
          ⟨inside, fun block mem => ?_, fun row mem => .inl ?_, .inl rfl, ?_⟩, rfl⟩
        · obtain ⟨row, there, rfl⟩ := List.mem_map.mp (mem_sortDedup.mp mem)
          exact block_inside (inside row there)
        · exact mem_sortDedup.mpr (List.mem_map_of_mem mem)
        · exact fun _ _ _ none_ => by cases none_

theorem rowOf_length (whole : payload.length = tier.numRows * tier.rowBytes) {row : U32}
    (inside : row.toNat < tier.numRows) :
    (rowOf payload tier.rowBytes row).length = tier.rowBytes := by
  have fits := Nat.mul_le_mul_right tier.rowBytes inside
  rw [Nat.succ_mul] at fits
  rw [rowOf, List.length_take, List.length_drop, whole]
  omega

/-- The rows' slices, one behind another. -/
theorem copyRows_ok (whole : payload.length = tier.numRows * tier.rowBytes)
    {cache : Nat → Option (List U8)} (inside : ∀ row ∈ rows, row.toNat < tier.numRows)
    (held : ∀ row ∈ rows, cache (row.toNat / rowsPerBlock) =
      some (blockOf payload tier.rowBytes (row.toNat / rowsPerBlock))) :
    tier.copyRows cache rows = some (rows.flatMap (rowOf payload tier.rowBytes)) := by
  refine foldlM_writeAt_slots (rowOf payload tier.rowBytes) tier.rowBytes
    (fun row mem => rowOf_length whole (inside row mem)) (fun n row out at_ length => ?_)
    List.length_replicate
  have mem := List.mem_of_getElem? at_
  have slice : row.toNat % rowsPerBlock * tier.rowBytes + tier.rowBytes ≤
      (blockOf payload tier.rowBytes (row.toNat / rowsPerBlock)).length := by
    have below := inside row mem
    rw [blockOf_length whole, ← Nat.succ_mul]
    refine Nat.mul_le_mul_right _ ?_
    unfold rowsPerBlock
    omega
  unfold ColdTier.copyRow
  dsimp only
  rw [held row mem]
  show (sliceExact _ _ _ >>= _) = _
  rw [sliceExact_ok slice, row_of_block]
  rfl

variable {g : Gather} {recent : List (Nat × List U8)}

theorem Gather.Ok.fetched (h : g.Ok tier z payload) {block : Nat} {needed : List Nat}
    (next : g.needed = block :: needed) :
    Gather.Ok tier z payload { g with
      needed := needed
      cache := Function.update g.cache block (some (blockOf payload tier.rowBytes block))
      fresh := none } where
  inside := h.inside
  needed b mem := h.needed b (next ▸ List.mem_cons_of_mem _ mem)
  covered row mem := by
    by_cases here : row.toNat / rowsPerBlock = block
    · right
      dsimp only
      rw [here, Function.update_self]
    · refine (h.covered row mem).imp (fun waits => ?_) fun held => ?_
      · rw [next] at waits
        exact (List.mem_cons.mp waits).resolve_left here
      · dsimp only
        rwa [Function.update_of_ne here]
  decoder := h.decoder
  fresh _ _ _ none_ := by cases none_

/-- Whatever other gathers have left in the list, a gather's step keeps it, and either returns the
raw rows or has less to do. -/
theorem stepGather_cases (inverts : z.Inverts) (packs : Packs z tier payload)
    (listed : Recent tier payload recent) (h : g.Ok tier z payload) :
    ∃ recent', Recent tier payload recent' ∧
      ((∃ g', tier.stepGather z recent g = (recent', .inl g') ∧ g'.Ok tier z payload ∧
          g'.rows = g.rows ∧ g'.left < g.left) ∨
        tier.stepGather z recent g =
          (recent', .inr (.ok (g.rows.flatMap (rowOf payload tier.rowBytes))))) := by
  unfold ColdTier.stepGather
  cases next : g.needed with
  | nil =>
      refine ⟨recent, listed, .inr ?_⟩
      have held : ∀ row ∈ g.rows, g.cache (row.toNat / rowsPerBlock) =
          some (blockOf payload tier.rowBytes (row.toNat / rowsPerBlock)) := fun row mem =>
        (h.covered row mem).resolve_left (by rw [next]; exact List.not_mem_nil)
      rw [copyRows_ok packs.whole h.inside held]
      rfl
  | cons block needed =>
      have inside : block < numBlocks tier.numRows := h.needed block (next ▸ List.mem_cons_self)
      cases waits : g.fresh with
      | some raw =>
          obtain rfl := h.fresh raw block needed waits next
          refine ⟨_, listed.remember (packs.count ▸ inside), .inl ⟨_, rfl, h.fetched next, rfl, ?_⟩⟩
          rw [Gather.left, Gather.left, next, waits, List.length_cons, Option.isSome_none,
            Option.isSome_some, if_pos rfl, if_neg Bool.false_ne_true]
          dsimp only
          omega
      | none =>
          dsimp only
          cases hit : recentBlock recent block with
          | some found =>
              obtain ⟨raw, recent'⟩ := found
              obtain ⟨rfl, listed⟩ := listed.hit hit
              refine ⟨recent', listed, .inl ⟨_, rfl, h.fetched next, rfl, ?_⟩⟩
              rw [Gather.left, Gather.left, next, List.length_cons]
              dsimp only
              rw [waits, Option.isSome_none, if_neg Bool.false_ne_true]
              omega
          | none =>
              obtain ⟨decoder, bound, whole⟩ := bindDecoder_ok inverts h.decoder
              dsimp only
              rw [bound]
              dsimp only
              rw [packs.decompressBlock inverts whole inside]
              refine ⟨recent, listed, .inl ⟨_, rfl,
                ⟨h.inside, fun b mem => h.needed b (next ▸ mem),
                  fun row mem => next ▸ h.covered row mem, .inr whole, ?_⟩, rfl, ?_⟩⟩
              · intro raw block' rest got next'
                rw [← Option.some.inj got, (List.cons.inj next').1]
              · rw [Gather.left, Gather.left, next, waits, List.length_cons, Option.isSome_none,
                  Option.isSome_some, if_pos rfl, if_neg Bool.false_ne_true]
                omega

end Gather

/-! ### Any number of threads -/

/-- The shared list, the gather each thread is in, and what has been returned. -/
structure Gathers where
  recent : List (Nat × List U8)
  busy : Nat → Option Gather
  returned : List (List U32 × Except Failure (List U8))

namespace Gathers

/-- A tier just built, or cloned. -/
def start : Gathers := ⟨[], fun _ => none, []⟩

variable (tier : ColdTier) (z : Zstd)

def call (s : Gathers) (thread : Nat) (rows : List U32) : Gathers :=
  match tier.startGather rows with
  | .inl g => { s with busy := Function.update s.busy thread (some g) }
  | .inr result => { s with returned := s.returned ++ [(rows, result)] }

def advance (s : Gathers) (thread : Nat) (g : Gather) : Gathers :=
  match tier.stepGather z s.recent g with
  | (recent, .inl g) =>
      { s with recent := recent, busy := Function.update s.busy thread (some g) }
  | (recent, .inr result) =>
      ⟨recent, Function.update s.busy thread none, s.returned ++ [(g.rows, result)]⟩

/-- One thread calls, or goes on through its next lock section. -/
inductive Step (s : Gathers) : Gathers → Prop
  | call (thread : Nat) (rows : List U32) (idle : s.busy thread = none) :
      Step s (s.call tier thread rows)
  | advance (thread : Nat) (g : Gather) (busy : s.busy thread = some g) :
      Step s (s.advance tier z thread g)

structure Inv (payload : List U8) (s : Gathers) : Prop where
  recent : Recent tier payload s.recent
  busy : ∀ thread g, s.busy thread = some g → g.Ok tier z payload
  returned : ∀ entry ∈ s.returned, AnsweredAs tier payload entry.1 entry.2

variable {tier z} {payload : List U8} {s s' : Gathers}

theorem inv_start : Inv tier z payload start where
  recent := ⟨Nat.zero_le _, List.nodup_nil, fun _ mem => absurd mem List.not_mem_nil⟩
  busy _ _ none_ := by cases none_
  returned _ mem := absurd mem List.not_mem_nil

theorem Inv.busy_update (h : Inv tier z payload s) {g : Option Gather} (thread : Nat)
    (ok : ∀ g', g = some g' → g'.Ok tier z payload) :
    ∀ thread' g', Function.update s.busy thread g thread' = some g' → g'.Ok tier z payload := by
  intro thread' g' at_
  by_cases same : thread' = thread
  · rw [same, Function.update_self] at at_
    exact ok g' at_
  · rw [Function.update_of_ne same] at at_
    exact h.busy thread' g' at_

theorem Inv.return (h : Inv tier z payload s) {rows : List U32} {result : Except Failure (List U8)}
    (right : AnsweredAs tier payload rows result) :
    ∀ entry ∈ s.returned ++ [(rows, result)], AnsweredAs tier payload entry.1 entry.2 := by
  intro entry mem
  rcases List.mem_append.mp mem with old | new
  · exact h.returned entry old
  · rw [List.mem_singleton.mp new]
    exact right

theorem Inv.step (inverts : z.Inverts) (packs : Packs z tier payload) (h : Inv tier z payload s)
    (step : Step tier z s s') : Inv tier z payload s' := by
  cases step with
  | call thread rows idle =>
      unfold call
      rcases startGather_cases tier z payload rows with ⟨g, started, ok, -⟩ | ⟨result, ended, right⟩
      · rw [started]
        exact ⟨h.recent, h.busy_update thread fun g' at_ => Option.some.inj at_ ▸ ok, h.returned⟩
      · rw [ended]
        exact ⟨h.recent, h.busy, h.return right⟩
  | advance thread g busy =>
      have ok := h.busy thread g busy
      obtain ⟨recent, listed, ⟨g', went, ok', -⟩ | ended⟩ :=
        stepGather_cases inverts packs h.recent ok
      · rw [advance, went]
        exact ⟨listed, h.busy_update thread fun g' at_ => Option.some.inj at_ ▸ ok', h.returned⟩
      · rw [advance, ended]
        exact ⟨listed, h.busy_update thread (fun _ none_ => by cases none_),
          h.return (.inl ⟨ok.inside, rfl⟩)⟩

theorem Inv.run (inverts : z.Inverts) (packs : Packs z tier payload) (h : Inv tier z payload s)
    (run : Relation.ReflTransGen (Step tier z) s s') : Inv tier z payload s' := by
  induction run with
  | refl => exact h
  | tail _ step ih => exact ih.step inverts packs step

/-- What holds in every state: the list is sound, every gather has returned its own rows or the
error of a row out of range, such a row's call changes nothing else, and a gather under way comes
closer to its return with each of its own steps. -/
structure Transparent (tier : ColdTier) (z : Zstd) (payload : List U8) (s : Gathers) : Prop where
  recent : Recent tier payload s.recent
  returned : ∀ entry ∈ s.returned, AnsweredAs tier payload entry.1 entry.2
  refuses : ∀ thread rows, (∃ row ∈ rows, tier.numRows ≤ row.toNat) →
    ∃ result, s.call tier thread rows = { s with returned := s.returned ++ [(rows, result)] } ∧
      AnsweredAs tier payload rows result
  returns : ∀ thread g, s.busy thread = some g →
    (s.advance tier z thread g).returned =
        s.returned ++ [(g.rows, .ok (g.rows.flatMap (rowOf payload tier.rowBytes)))] ∨
      ∃ g', (s.advance tier z thread g).busy thread = some g' ∧ g'.rows = g.rows ∧ g'.left < g.left

theorem Inv.transparent (inverts : z.Inverts) (packs : Packs z tier payload)
    (h : Inv tier z payload s) : Transparent tier z payload s where
  recent := h.recent
  returned := h.returned
  refuses thread rows outside := by
    unfold call
    rcases startGather_cases tier z payload rows with ⟨g, -, ok, same⟩ | ⟨result, ended, right⟩
    · obtain ⟨row, mem, past⟩ := outside
      exact absurd (ok.inside row (same ▸ mem)) (Nat.not_lt.mpr past)
    · exact ⟨result, by rw [ended], right⟩
  returns thread g busy := by
    obtain ⟨recent, -, ⟨g', went, -, rows, less⟩ | ended⟩ :=
      stepGather_cases inverts packs h.recent (h.busy thread g busy)
    · right
      rw [advance, went]
      exact ⟨g', Function.update_self .., rows, less⟩
    · left
      rw [advance, ended]

end Gathers

/-! ### A store of a feature file -/

section Store

variable {file : List U8} {h : FeatureHeader}

/-- `ColdStore::gather` behind `gather_rows`: each raw row decoded into its own place. -/
def ColdStore.decodeRaw (store : ColdStore) (decoder : RowDecoder) (nodes : Nat)
    (raw : List U8) : Option (List U32) :=
  (chunksExact store.tier.rowBytes raw).zipIdx.foldlM (fun out (chunk, i) => do
    let row ← decodeRow decoder.half decoder.path store.dtype chunk store.featureDim
    if (i + 1) * store.featureDim ≤ out.length then
      some (writeAt out (i * store.featureDim) row)
    else none) (List.replicate (nodes * store.featureDim) 0)

theorem decodeAll_length (half : HalfToFloat) {dtype : FeatureDtype} {src : List U8} {len : Nat}
    (whole : src.length = len * dtype.elementSize) : (decodeAll half dtype src).length = len := by
  rw [decodeAll, List.length_map, chunksExact, List.length_map, List.length_range, whole,
    Nat.mul_div_cancel _ dtype.elementSize_pos]

/-- A row of the payload is the row at its place in the file. -/
theorem rowOf_payload (checked : h.Checked file.length) {node : U32}
    (inside : node.toNat < h.numNodes) :
    rowOf (payloadOf h file) h.featureSize node = fileRow h.layout file node.toNat := by
  have size : h.layout.featureSize = h.featureSize := checked.featureSize.symm
  have start : h.layout.featuresStartOffset = h.featuresStartOffset := rfl
  have fits := Nat.mul_le_mul_right h.featureSize inside
  rw [Nat.succ_mul, ← checked.payload] at fits
  rw [rowOf, payloadOf, fileRow, size, start, List.drop_take, List.take_take, List.drop_drop,
    Nat.min_eq_left (by omega)]

theorem decodeRaw_ok (checked : h.Checked file.length) {store : ColdStore}
    (width : store.tier.rowBytes = h.featureSize) (positive : 0 < h.featureSize)
    (dtype : store.dtype = h.dtype) (dim : store.featureDim = h.featureDim) (decoder : RowDecoder)
    {nodes : List U32} (inside : ∀ node ∈ nodes, node.toNat < h.numNodes) :
    store.decodeRaw decoder nodes.length
        (nodes.flatMap (rowOf (payloadOf h file) h.featureSize)) =
      some (decodedRows h decoder.half file nodes) := by
  have size : h.layout.featureSize = h.featureSize := checked.featureSize.symm
  have rows : ∀ node ∈ nodes, rowOf (payloadOf h file) h.featureSize node =
      fileRow h.layout file node.toNat := fun node mem => rowOf_payload checked (inside node mem)
  have length : ∀ node ∈ nodes, (fileRow h.layout file node.toNat).length =
      h.featureDim * h.dtype.elementSize := fun node mem =>
    (fileRow_length checked (inside node mem)).trans (size.trans checked.featureSize)
  have cut : chunksExact h.featureSize (nodes.flatMap (rowOf (payloadOf h file) h.featureSize)) =
      nodes.map fun node => fileRow h.layout file node.toNat := by
    rw [chunksExact_flatMap positive fun node mem => ?_]
    · exact List.map_congr_left rows
    · rw [rows node mem, length node mem, checked.featureSize]
  unfold ColdStore.decodeRaw
  rw [width, dtype, dim, cut, foldlM_writeAt_slots (decodeAll decoder.half h.dtype) h.featureDim]
  · rw [List.flatMap_map]
    rfl
  · intro row mem
    obtain ⟨node, held, rfl⟩ := List.mem_map.mp mem
    exact decodeAll_length decoder.half (length node held)
  · intro n row out at_ long
    obtain ⟨inside, -⟩ := List.getElem?_eq_some_iff.mp at_
    obtain ⟨node, held, rfl⟩ := List.mem_map.mp (List.mem_of_getElem? at_)
    dsimp only
    rw [decodeRow_eq decoder.half decoder.path (length node held)]
    refine if_pos ?_
    rw [long]
    exact Nat.mul_le_mul_right _ inside
  · rw [List.length_replicate, List.length_map]

end Store

/-- The frame of a few bytes that do not compress: one raw block. -/
def rawFrame (raw : List U8) : List U8 :=
  [0x28, 0xB5, 0x2F, 0xFD, 0x20, BitVec.ofNat 8 raw.length] ++ toLe 3 (raw.length * 8 + 1) ++ raw

def unframe (packed : List U8) (capacity : Nat) : Option (List U8) :=
  let raw := packed.drop 9
  if packed = rawFrame raw ∧ raw.length ≤ capacity then some raw else none

/-- A compressor of inputs too short for anything but a raw block. -/
def rawZstd : Zstd where
  fromContinuous _ _ _ := none
  compress raw _ := if raw.length < 7 then some (rawFrame raw) else none
  compressor _ _ := none
  decompress := unframe
  decompressor _ := some unframe

theorem rawZstd_inverts : rawZstd.Inverts where
  plain raw level packed framed := by
    unfold rawZstd at framed
    dsimp only at framed
    split_ifs at framed
    obtain rfl := Option.some.inj framed
    exact if_pos ⟨rfl, Nat.le_refl _⟩
  prepared _ _ := rfl
  bound _ _ _ _ _ _ none_ := by cases none_

end AetherGraph
