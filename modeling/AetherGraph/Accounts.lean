import AetherGraph.Arena
import Mathlib.Data.List.Perm.Basic

/-! Who owns a slot.  Every slot below a bump cursor is on a free list, in a pending
batch, or held by somebody outside the arena; the three are disjoint and the free lists
are threaded through the slots themselves.  Allocation hands out slots nobody held,
and reclaiming or allocating never rewrites a held slot, nor a slot an old batch still
keeps for a pinned epoch. -/

namespace AetherGraph

/-- The links followed from `head`, `n` of them. -/
def followLinks (link : Nat → Nat) : Nat → Nat → List Nat
  | 0, _ => []
  | n + 1, head => head :: followLinks link n (link head)

/-- `slots` is the list threaded from `head`, ended by the sentinel. -/
def Threaded (link : Nat → Nat) : Nat → List Nat → Prop
  | head, [] => head = noSlot
  | head, i :: rest => head = i ∧ i ≠ noSlot ∧ Threaded link (link i) rest

theorem Threaded.followLinks_eq {link : Nat → Nat} {head : Nat} {slots : List Nat}
    (h : Threaded link head slots) : followLinks link slots.length head = slots := by
  induction slots generalizing head with
  | nil => rfl
  | cons i rest ih =>
      obtain ⟨rfl, _, hrest⟩ := h
      simp only [List.length_cons, followLinks, ih hrest]

theorem Threaded.congr {link link' : Nat → Nat} {head : Nat} {slots : List Nat}
    (h : Threaded link head slots) (same : ∀ i ∈ slots, link' i = link i) :
    Threaded link' head slots := by
  induction slots generalizing head with
  | nil => exact h
  | cons i rest ih =>
      obtain ⟨hi, hne, hrest⟩ := h
      refine ⟨hi, hne, ?_⟩
      rw [same i (List.mem_cons_self ..)]
      exact ih hrest fun j hj => same j (List.mem_cons_of_mem i hj)

@[simp] theorem followLinks_length (link : Nat → Nat) (n head : Nat) :
    (followLinks link n head).length = n := by
  induction n generalizing head with
  | zero => rfl
  | succ n ih => simp only [followLinks, List.length_cons, ih]

namespace Arena

def freeList (a : Arena) (k : SlotClass) : List Nat :=
  followLinks (a.readLink k) (a.recycler.freeCount k) (a.recycler.freeHead k)

def pendingSlots (a : Arena) (k : SlotClass) : List Nat :=
  (a.recycler.pendingYoung ++ a.recycler.pendingOld).flatMap fun b => b.slots k

/-- Both arenas store the same node in the slot. -/
def SameNode (a a' : Arena) : SlotClass → Nat → Prop
  | .chunk, i => a'.chunks i = a.chunks i
  | .interior, i => a'.interiors i = a.interiors i

theorem SameNode.refl (a : Arena) (k : SlotClass) (i : Nat) : SameNode a a k i := by
  cases k <;> rfl

theorem SameNode.trans {a b c : Arena} {k : SlotClass} {i : Nat} (h : SameNode a b k i)
    (h' : SameNode b c k i) : SameNode a c k i := by
  cases k with
  | chunk => exact Eq.trans (b := b.chunks i) h' h
  | interior => exact Eq.trans (b := b.interiors i) h' h

theorem SameNode.readLink {a a' : Arena} {k : SlotClass} {i : Nat} (h : SameNode a a' k i) :
    a'.readLink k i = a.readLink k i := by
  cases k with
  | chunk =>
      change a'.chunks i = a.chunks i at h
      simp only [Arena.readLink, h]
  | interior =>
      change a'.interiors i = a.interiors i at h
      simp only [Arena.readLink, h]

/-- Cursor arithmetic, free lists threaded through their own slots, and no slot free
or pending twice. -/
structure Ok (a : Arena) : Prop where
  capacity_mod : a.capacity % interiorSlot = 0
  capacity_le : a.capacity ≤ maxCapacity
  low_mod : a.low % chunkSlot = 0
  high_mod : a.high % interiorSlot = 0
  low_le_high : a.low ≤ a.high
  high_le : a.high ≤ a.capacity
  interior_lt : a.bumped .interior < 2 ^ 31
  threaded : ∀ k, Threaded (a.readLink k) (a.recycler.freeHead k) (a.freeList k)
  nodup : ∀ k, (a.freeList k ++ a.pendingSlots k).Nodup
  below : ∀ k, ∀ i ∈ a.freeList k ++ a.pendingSlots k, i < a.bumped k

/-- Handed out and not given back. -/
def Held (a : Arena) (k : SlotClass) (i : Nat) : Prop :=
  i < a.bumped k ∧ i ∉ a.freeList k ∧ i ∉ a.pendingSlots k

/-- No reclaim can free the slot while epoch `e` is pinned: it is held, or only old
batches with a later stamp contain it. -/
def Shields (a : Arena) (e : Nat) (k : SlotClass) (i : Nat) : Prop :=
  i < a.bumped k ∧ i ∉ a.freeList k ∧ (∀ b ∈ a.recycler.pendingYoung, i ∉ b.slots k) ∧
    ∀ b ∈ a.recycler.pendingOld, i ∈ b.slots k → e < b.stampEpoch

theorem new_ok {capacity : Nat} {a : Arena} (h : Arena.new capacity = some a) : a.Ok := by
  unfold Arena.new at h
  split at h
  · cases h
  rename_i small
  dsimp only at h
  split at h
  · cases h
  obtain rfl := Option.some.inj h
  refine ⟨?_, ?_, rfl, ?_, Nat.zero_le _, Nat.le_refl _, ?_, fun k => rfl, fun k => List.nodup_nil,
    fun k i hi => absurd hi List.not_mem_nil⟩
  · simp only [interiorSlot]
    omega
  · simp only [interiorSlot]
    omega
  · simp only [interiorSlot]
    omega
  · simp only [bumped, Nat.sub_self, Nat.zero_div]
    decide

theorem mem_pendingSlots {a : Arena} {k : SlotClass} {i : Nat} :
    i ∈ a.pendingSlots k ↔
      (∃ b ∈ a.recycler.pendingYoung, i ∈ b.slots k) ∨
        ∃ b ∈ a.recycler.pendingOld, i ∈ b.slots k := by
  simp only [pendingSlots, List.flatMap_append, List.mem_append, List.mem_flatMap]

theorem Held.shields {a : Arena} {k : SlotClass} {i : Nat} (h : a.Held k i) (e : Nat) :
    a.Shields e k i := by
  obtain ⟨hb, hf, hp⟩ := h
  rw [mem_pendingSlots, not_or] at hp
  refine ⟨hb, hf, fun b hy hi => hp.1 ⟨b, hy, hi⟩, fun b ho hi => ?_⟩
  exact absurd ⟨b, ho, hi⟩ hp.2

theorem bumped_lt {a : Arena} (h : a.Ok) (k : SlotClass) : a.bumped k < 2 ^ 31 := by
  cases k with
  | chunk =>
      have low := h.low_le_high.trans (h.high_le.trans h.capacity_le)
      simp only [bumped, maxCapacity, interiorSlot, chunkSlot] at low ⊢
      omega
  | interior => exact h.interior_lt

theorem Held.lt {a : Arena} (ok : a.Ok) {k : SlotClass} {i : Nat} (h : a.Held k i) :
    i < 2 ^ 31 - 1 := by
  have top := h.1
  cases k with
  | chunk =>
      have low := ok.low_le_high.trans (ok.high_le.trans ok.capacity_le)
      simp only [bumped, maxCapacity, interiorSlot, chunkSlot] at low top
      omega
  | interior =>
      have := ok.interior_lt
      omega

/-- One class's slots, none of the other. -/
def only (k : SlotClass) (slots : List Nat) : SlotClass → List Nat :=
  fun k' => if k' = k then slots else []

@[simp] theorem only_self (k : SlotClass) (slots : List Nat) : only k slots k = slots :=
  if_pos rfl

theorem only_of_ne {k k' : SlotClass} (h : k' ≠ k) (slots : List Nat) : only k slots k' = [] :=
  if_neg h

theorem mem_only {k k' : SlotClass} {slots : List Nat} {i : Nat} :
    i ∈ only k slots k' ↔ k' = k ∧ i ∈ slots := by
  by_cases h : k' = k
  · subst h
    simp
  · simp [only_of_ne h, h]

@[simp] theorem only_nil (k : SlotClass) : only k [] = fun _ => [] := by
  funext k'
  simp [only]

theorem only_append (k : SlotClass) (l l' : List Nat) :
    (fun k' => only k l k' ++ only k l' k') = only k (l ++ l') := by
  funext k'
  by_cases h : k' = k
  · subst h
    simp
  · simp [only_of_ne h]

/-- `a'` is `a` with the slots of `freed` threaded onto the free lists. -/
structure Freed (a a' : Arena) (freed : SlotClass → List Nat) : Prop where
  threaded : ∀ k, Threaded (a'.readLink k) (a'.recycler.freeHead k) (a'.freeList k)
  free : ∀ k, a'.freeList k = (freed k).reverse ++ a.freeList k
  node : ∀ k i, i ∉ freed k → SameNode a a' k i
  capacity : a'.capacity = a.capacity
  pins : a'.pins = a.pins
  low : a'.low = a.low
  high : a'.high = a.high
  young : a'.recycler.pendingYoung = a.recycler.pendingYoung
  old : a'.recycler.pendingOld = a.recycler.pendingOld

theorem Freed.refl {a : Arena}
    (h : ∀ k, Threaded (a.readLink k) (a.recycler.freeHead k) (a.freeList k)) :
    Freed a a fun _ => [] :=
  ⟨h, fun _ => rfl, fun k i _ => .refl a k i, rfl, rfl, rfl, rfl, rfl, rfl⟩

theorem Freed.trans {a b c : Arena} {f g : SlotClass → List Nat} (h : Freed a b f)
    (h' : Freed b c g) : Freed a c fun k => f k ++ g k where
  threaded := h'.threaded
  free k := by rw [h'.free, h.free, List.reverse_append, List.append_assoc]
  node k i hi := by
    rw [List.mem_append, not_or] at hi
    exact (h.node k i hi.1).trans (h'.node k i hi.2)
  capacity := h'.capacity.trans h.capacity
  pins := h'.pins.trans h.pins
  low := h'.low.trans h.low
  high := h'.high.trans h.high
  young := h'.young.trans h.young
  old := h'.old.trans h.old

theorem readLink_writeLink (a : Arena) (k k' : SlotClass) (idx next i : Nat) :
    (a.writeLink k idx next).readLink k' i =
      if k' = k ∧ i = idx then next else a.readLink k' i := by
  cases k <;> cases k' <;> by_cases hi : i = idx <;>
    simp [writeLink, readLink, hi]
  omega

theorem sameNode_writeLink (a : Arena) {k k' : SlotClass} {idx next i : Nat}
    (h : ¬ (k' = k ∧ i = idx)) : SameNode a (a.writeLink k idx next) k' i := by
  cases k <;> cases k' <;> simp_all [writeLink, SameNode]

theorem recycler_writeLink (a : Arena) (k : SlotClass) (idx next : Nat) :
    (a.writeLink k idx next).recycler = a.recycler := by
  cases k <;> rfl

theorem pushFree_freed {a : Arena} {k : SlotClass} {idx : Nat}
    (h : ∀ k, Threaded (a.readLink k) (a.recycler.freeHead k) (a.freeList k))
    (hidx : idx ≠ noSlot) (fresh : idx ∉ a.freeList k) :
    Freed a (pushFree k a idx) (only k [idx]) := by
  have link : ∀ k' i, (pushFree k a idx).readLink k' i =
      if k' = k ∧ i = idx then a.recycler.freeHead k else a.readLink k' i :=
    fun k' i => readLink_writeLink a k k' idx _ i
  have head : (pushFree k a idx).recycler.freeHead = Function.update a.recycler.freeHead k idx := by
    simp only [pushFree, recycler_writeLink]
  have chain : ∀ k', Threaded ((pushFree k a idx).readLink k')
      ((pushFree k a idx).recycler.freeHead k')
      (only k [idx] k' ++ a.freeList k') := by
    intro k'
    by_cases hk : k' = k
    · subst hk
      rw [head, Function.update_self, only_self]
      refine ⟨rfl, hidx, ?_⟩
      rw [link, if_pos ⟨rfl, rfl⟩]
      refine (h k').congr fun i hi => ?_
      rw [link, if_neg]
      rintro ⟨_, rfl⟩
      exact fresh hi
    · rw [head, Function.update_of_ne hk, only_of_ne hk]
      refine (h k').congr fun i _ => ?_
      rw [link, if_neg fun both => hk both.1]
  have count : ∀ k', (pushFree k a idx).recycler.freeCount k' =
      (only k [idx] k' ++
        a.freeList k').length := by
    intro k'
    simp only [pushFree, recycler_writeLink, List.length_append, freeList, followLinks_length]
    by_cases hk : k' = k
    · subst hk
      simp only [Function.update_self, only_self, List.length_singleton, Nat.add_comm]
    · simp only [Function.update_of_ne hk, only_of_ne hk, List.length_nil, Nat.zero_add]
  have free : ∀ k', (pushFree k a idx).freeList k' =
      only k [idx] k' ++ a.freeList k' := by
    intro k'
    rw [freeList, count k']
    exact (chain k').followLinks_eq
  have reversed : ∀ k', (only k [idx] k').reverse =
      only k [idx] k' := by
    intro k'
    by_cases hk : k' = k
    · subst hk
      simp only [only_self, List.reverse_singleton]
    · simp only [only_of_ne hk, List.reverse_nil]
  exact {
    threaded := fun k' => by rw [free]; exact chain k'
    free := fun k' => by rw [free, reversed]
    node := fun k' i hi => sameNode_writeLink a fun both => by
      obtain ⟨rfl, rfl⟩ := both
      simp at hi
    capacity := by cases k <;> rfl
    pins := by cases k <;> rfl
    low := by cases k <;> rfl
    high := by cases k <;> rfl
    young := by cases k <;> rfl
    old := by cases k <;> rfl }

theorem foldl_pushFree_freed {a : Arena} {k : SlotClass} {slots : List Nat}
    (h : ∀ k, Threaded (a.readLink k) (a.recycler.freeHead k) (a.freeList k))
    (real : ∀ i ∈ slots, i ≠ noSlot) (nodup : (a.freeList k ++ slots).Nodup) :
    Freed a (slots.foldl (pushFree k) a) (only k slots) := by
  induction slots generalizing a with
  | nil =>
      rw [only_nil]
      exact .refl h
  | cons i rest ih =>
      have fresh : i ∉ a.freeList k := fun hi =>
        (List.nodup_append.mp nodup).2.2 i hi i (List.mem_cons_self ..) rfl
      have one := pushFree_freed h (real i (List.mem_cons_self ..)) fresh
      have rest' := ih one.threaded (fun j hj => real j (List.mem_cons_of_mem i hj)) (by
        rw [one.free, only_self]
        refine nodup.perm ?_
        simp only [List.reverse_singleton, List.cons_append]
        exact List.perm_middle)
      have joined := one.trans rest'
      rwa [only_append, List.singleton_append] at joined

theorem freeBatch_freed {a : Arena} {b : PendingBatch}
    (h : ∀ k, Threaded (a.readLink k) (a.recycler.freeHead k) (a.freeList k))
    (real : ∀ k, ∀ i ∈ b.slots k, i ≠ noSlot) (nodup : ∀ k, (a.freeList k ++ b.slots k).Nodup) :
    Freed a (a.freeBatch b) b.slots := by
  have low := foldl_pushFree_freed h (real .chunk) (nodup .chunk)
  have high := foldl_pushFree_freed low.threaded (real .interior) (by
    rw [low.free, only_of_ne (show SlotClass.interior ≠ .chunk by decide)]
    exact nodup .interior)
  have split : (fun k => only .chunk (b.slots .chunk) k ++ only .interior (b.slots .interior) k) = b.slots := by
    funext k
    cases k <;> simp [only]
  rw [← split]
  exact low.trans high

/-- A drain frees the batches of a ready prefix. -/
theorem drain_freed (ready : PendingBatch → Bool) (queue : List PendingBatch) {a : Arena}
    (h : ∀ k, Threaded (a.readLink k) (a.recycler.freeHead k) (a.freeList k))
    (real : ∀ k, ∀ i ∈ queue.flatMap fun b => b.slots k, i ≠ noSlot)
    (nodup : ∀ k, (a.freeList k ++ queue.flatMap fun b => b.slots k).Nodup) :
    ∃ done, queue = done ++ (drain ready queue a).1 ∧ (∀ b ∈ done, ready b = true) ∧
      Freed a (drain ready queue a).2 fun k => done.flatMap fun b => b.slots k := by
  induction queue generalizing a with
  | nil => exact ⟨[], rfl, fun _ hb => absurd hb List.not_mem_nil, .refl h⟩
  | cons b rest ih =>
      simp only [drain]
      by_cases hb : ready b = true
      · simp only [hb, if_true]
        simp only [List.flatMap_cons, List.mem_append] at real nodup
        have one := freeBatch_freed h (fun k i hi => real k i (.inl hi)) (fun k => by
          refine (nodup k).sublist ?_
          exact (List.sublist_append_left _ _).append_left _)
        obtain ⟨done, hq, hready, hfreed⟩ := ih one.threaded
          (fun k i hi => real k i (.inr hi)) (fun k => by
            rw [one.free]
            refine (nodup k).perm ?_
            rw [← List.append_assoc]
            refine List.Perm.append_right _ ?_
            refine List.perm_append_comm.trans ?_
            exact List.Perm.append_right _ (List.reverse_perm _).symm)
        refine ⟨b :: done, by rw [List.cons_append, ← hq], ?_, ?_⟩
        · intro c hc
          rcases List.mem_cons.mp hc with rfl | hc
          · exact hb
          · exact hready c hc
        · simpa only [List.flatMap_cons] using one.trans hfreed
      · simp only [hb]
        exact ⟨[], rfl, fun _ hc => absurd hc List.not_mem_nil, .refl h⟩

/-- What a reclaim leaves: accounts in order, the same slots held, every slot shielded
for some pinned epoch still shielded and unwritten, and no old batch released before its
stamp was out of every pin's way. -/
structure Reclaimed (a a' : Arena) : Prop where
  ok : a'.Ok
  capacity : a'.capacity = a.capacity
  low : a'.low = a.low
  high : a'.high = a.high
  pins : a'.pins = a.pins
  held : ∀ k i, a'.Held k i ↔ a.Held k i
  shields : ∀ e, a.pins.min ≤ e → ∀ k i, a.Shields e k i →
    a'.Shields e k i ∧ SameNode a a' k i
  released : ∀ b ∈ a.recycler.pendingOld, b ∉ a'.recycler.pendingOld → b.stampEpoch ≤ a.pins.min

theorem Reclaimed.refl {a : Arena} (ok : a.Ok) : Reclaimed a a :=
  ⟨ok, rfl, rfl, rfl, rfl, fun _ _ => Iff.rfl, fun _ _ k i h => ⟨h, .refl a k i⟩,
    fun _ hb gone => absurd hb gone⟩

theorem Reclaimed.bumped {a a' : Arena} (h : Reclaimed a a') (k : SlotClass) :
    a'.bumped k = a.bumped k := by
  cases k
  · simp only [Arena.bumped, h.low]
  · simp only [Arena.bumped, h.high, h.capacity]

theorem reclaimed_of_freed {a b : Arena} (ok : a.Ok) {y₁ y₂ o₁ o₂ : List PendingBatch}
    (young : a.recycler.pendingYoung = y₁ ++ y₂) (old : a.recycler.pendingOld = o₁ ++ o₂)
    (ready : ∀ c ∈ o₁, c.stampEpoch ≤ a.pins.min)
    (freed : Freed a b fun k => (y₁.flatMap fun c => c.slots k) ++ o₁.flatMap fun c => c.slots k)
    {gate : ReadGate} :
    Reclaimed a { b with
      gate := gate
      recycler := { b.recycler with pendingYoung := y₂, pendingOld := o₂ } } := by
  set a' : Arena := { b with
    gate := gate
    recycler := { b.recycler with pendingYoung := y₂, pendingOld := o₂ } } with ha'
  have bumped : ∀ k, a'.bumped k = a.bumped k := by
    intro k
    cases k
    · simp only [ha', Arena.bumped, freed.low]
    · simp only [ha', Arena.bumped, freed.high, freed.capacity]
  have free : ∀ k, a'.freeList k = ((y₁.flatMap fun c => c.slots k) ++
      o₁.flatMap fun c => c.slots k).reverse ++ a.freeList k := fun k => freed.free k
  have pending : ∀ k, a'.pendingSlots k = (y₂ ++ o₂).flatMap fun c => c.slots k := fun _ => rfl
  have moved : ∀ k, (a.freeList k ++ a.pendingSlots k).Perm
      (a'.freeList k ++ a'.pendingSlots k) := by
    intro k
    rw [free, pending, pendingSlots, young, old]
    simp only [List.flatMap_append]
    generalize (y₁.flatMap fun c => c.slots k) = p
    generalize (y₂.flatMap fun c => c.slots k) = q
    generalize (o₁.flatMap fun c => c.slots k) = r
    generalize (o₂.flatMap fun c => c.slots k) = s
    generalize a.freeList k = f
    have front : (f ++ (p ++ r)).Perm ((p ++ r).reverse ++ f) :=
      List.perm_append_comm.trans ((List.reverse_perm _).symm.append_right f)
    calc f ++ (p ++ q ++ (r ++ s))
        _ = f ++ (p ++ (q ++ r) ++ s) := by simp only [List.append_assoc]
        List.Perm _ (f ++ (p ++ (r ++ q) ++ s)) :=
          ((List.perm_append_comm.append_left p).append_right s).append_left f
        _ = f ++ (p ++ r) ++ (q ++ s) := by simp only [List.append_assoc]
        List.Perm _ ((p ++ r).reverse ++ f ++ (q ++ s)) := front.append_right _
  have inside : ∀ k i, i ∈ a'.freeList k ++ a'.pendingSlots k ↔
      i ∈ a.freeList k ++ a.pendingSlots k := fun k i => (moved k).mem_iff.symm
  refine {
    ok := {
      capacity_mod := by rw [ha']; exact freed.capacity ▸ ok.capacity_mod
      capacity_le := by rw [ha']; exact freed.capacity ▸ ok.capacity_le
      low_mod := by rw [ha']; exact freed.low ▸ ok.low_mod
      high_mod := by rw [ha']; exact freed.high ▸ ok.high_mod
      low_le_high := by rw [ha']; exact freed.low ▸ freed.high ▸ ok.low_le_high
      high_le := by rw [ha']; exact freed.high ▸ freed.capacity ▸ ok.high_le
      interior_lt := by rw [bumped]; exact ok.interior_lt
      threaded := freed.threaded
      nodup := fun k => (ok.nodup k).perm (moved k)
      below := fun k i hi => by rw [bumped]; exact ok.below k i ((inside k i).mp hi) }
    capacity := freed.capacity
    low := freed.low
    high := freed.high
    pins := freed.pins
    held := fun k i => ?_
    shields := fun e he k i h => ?_
    released := fun c hc gone => ready c ?_ }
  · have same := inside k i
    simp only [List.mem_append] at same
    simp only [Held, bumped, ← not_or, same]
  · obtain ⟨hb, hf, hy, ho⟩ := h
    have kept : i ∉ (y₁.flatMap fun c => c.slots k) ++ o₁.flatMap fun c => c.slots k := by
      simp only [List.mem_append, List.mem_flatMap, not_or, not_exists, not_and]
      refine ⟨fun c hc => hy c (young ▸ List.mem_append_left _ hc), fun c hc hi => ?_⟩
      have late := ho c (old ▸ List.mem_append_left _ hc) hi
      have early := ready c hc
      omega
    refine ⟨⟨by rw [bumped]; exact hb, ?_, ?_, ?_⟩, freed.node k i kept⟩
    · rw [free, List.mem_append, not_or, List.mem_reverse]
      exact ⟨kept, hf⟩
    · exact fun c hc => hy c (young ▸ List.mem_append_right _ hc)
    · exact fun c hc => ho c (old ▸ List.mem_append_right _ hc)
  · rw [old] at hc
    exact (List.mem_append.mp hc).resolve_right gone

theorem noSlot_not_bumped {a : Arena} (ok : a.Ok) {k : SlotClass} {i : Nat}
    (h : i < a.bumped k) : i ≠ noSlot := by
  have := bumped_lt ok k
  simp only [noSlot]
  omega

theorem Freed.of_gate {a b : Arena} {gate : ReadGate} {freed : SlotClass → List Nat}
    (h : Freed { a with gate := gate } b freed) : Freed a b freed :=
  ⟨h.threaded, h.free, fun k i hi => by
    have same := h.node k i hi
    cases k <;> exact same, h.capacity, h.pins, h.low, h.high, h.young, h.old⟩

theorem reclaimReady_reclaimed {a : Arena} (ok : a.Ok) : Reclaimed a a.reclaimReady := by
  unfold reclaimReady
  dsimp only
  split
  · exact .refl ok
  · rename_i needed _
    generalize (if a.gate.phase < needed then a.gate.advance else a.gate) = gate
    have real : ∀ k, ∀ i ∈ a.pendingSlots k, i ≠ noSlot := fun k i hi =>
      noSlot_not_bumped ok (ok.below k i (List.mem_append_right _ hi))
    have nodup := ok.nodup
    simp only [pendingSlots, List.flatMap_append] at real nodup
    obtain ⟨y₁, hy, _, fy⟩ := drain_freed (fun b => decide (b.gracePhase ≤ gate.phase))
      a.recycler.pendingYoung (a := { a with gate := gate }) ok.threaded
      (fun k i hi => real k i (List.mem_append_left _ hi))
      (fun k => (nodup k).sublist ((List.sublist_append_left _ _).append_left _))
    obtain ⟨o₁, ho, hready, fo⟩ := drain_freed
      (fun b => decide (b.gracePhase ≤ gate.phase) && decide (b.stampEpoch ≤ a.pins.min))
      a.recycler.pendingOld fy.threaded
      (fun k i hi => real k i (List.mem_append_right _ hi))
      (fun k => by
        have young : (y₁.flatMap fun b => b.slots k).Sublist
            (a.recycler.pendingYoung.flatMap fun b => b.slots k) := by
          rw [hy, List.flatMap_append]
          exact List.sublist_append_left _ _
        rw [fy.free]
        refine ((nodup k).sublist
          ((young.append_right (a.recycler.pendingOld.flatMap fun b => b.slots k)).append_left
            (a.freeList k))).perm ?_
        rw [← List.append_assoc]
        refine List.Perm.append_right _ (List.perm_append_comm.trans ?_)
        exact (List.reverse_perm _).symm.append_right _)
    rw [fy.old]
    refine reclaimed_of_freed ok hy ho (fun c hc => ?_) (fy.trans fo).of_gate
    have := hready c hc
    simp only [Bool.and_eq_true, decide_eq_true_eq] at this
    exact this.2

/-- `a'` is `a` after allocations that handed out the slots of `F` and wrote only there. -/
structure Grows (a a' : Arena) (F : SlotClass → List Nat) : Prop where
  ok : a'.Ok
  capacity : a'.capacity = a.capacity
  pins : a'.pins = a.pins
  bumped : ∀ k, a.bumped k ≤ a'.bumped k
  nodup : ∀ k, (F k).Nodup
  held : ∀ k i, a'.Held k i ↔ a.Held k i ∨ i ∈ F k
  shields : ∀ e, a.pins.min ≤ e → ∀ k i, a.Shields e k i →
    a'.Shields e k i ∧ SameNode a a' k i ∧ i ∉ F k

theorem Reclaimed.grows {a a' : Arena} (h : Reclaimed a a') : Grows a a' fun _ => [] where
  ok := h.ok
  capacity := h.capacity
  pins := h.pins
  bumped k := (h.bumped k).ge
  nodup _ := List.nodup_nil
  held k i := (h.held k i).trans (by simp)
  shields e he k i hs := by
    obtain ⟨hs, same⟩ := h.shields e he k i hs
    exact ⟨hs, same, List.not_mem_nil⟩

theorem Grows.refl {a : Arena} (ok : a.Ok) : Grows a a fun _ => [] := (Reclaimed.refl ok).grows

theorem Grows.fresh {a a' : Arena} {F : SlotClass → List Nat} (h : Grows a a' F)
    {k : SlotClass} {i : Nat} (hi : i ∈ F k) : ¬ a.Held k i := fun held =>
  (h.shields _ le_rfl k i (held.shields _)).2.2 hi

theorem Grows.node {a a' : Arena} {F : SlotClass → List Nat} (h : Grows a a' F)
    {k : SlotClass} {i : Nat} (hi : a.Held k i) : SameNode a a' k i :=
  (h.shields _ le_rfl k i (hi.shields _)).2.1

theorem Grows.heldNew {a a' : Arena} {F : SlotClass → List Nat} (h : Grows a a' F)
    {k : SlotClass} {i : Nat} (hi : i ∈ F k) : a'.Held k i := (h.held k i).mpr (.inr hi)

theorem Grows.heldOld {a a' : Arena} {F : SlotClass → List Nat} (h : Grows a a' F)
    {k : SlotClass} {i : Nat} (hi : a.Held k i) : a'.Held k i := (h.held k i).mpr (.inl hi)

theorem Grows.trans {a b c : Arena} {F G : SlotClass → List Nat} (h : Grows a b F)
    (h' : Grows b c G) : Grows a c fun k => F k ++ G k where
  ok := h'.ok
  capacity := h'.capacity.trans h.capacity
  pins := h'.pins.trans h.pins
  bumped k := (h.bumped k).trans (h'.bumped k)
  nodup k := by
    refine List.nodup_append.mpr ⟨h.nodup k, h'.nodup k, fun i hi j hj same => ?_⟩
    subst same
    exact h'.fresh hj (h.heldNew hi)
  held k i := by rw [h'.held, h.held, List.mem_append, or_assoc]
  shields e he k i hs := by
    obtain ⟨hs, same, out⟩ := h.shields e he k i hs
    obtain ⟨hs, same', out'⟩ := h'.shields e (h.pins ▸ he) k i hs
    exact ⟨hs, same.trans same', fun hi => (List.mem_append.mp hi).elim out out'⟩

theorem popFree_grows {a a' : Arena} (ok : a.Ok) {k : SlotClass} {idx : Nat}
    (h : a.popFree k = some (idx, a')) : Grows a a' (only k [idx]) := by
  simp only [popFree] at h
  split at h
  · cases h
  rename_i head
  simp only [Option.some.injEq, Prod.mk.injEq] at h
  obtain ⟨rfl, rfl⟩ := h
  have chain := ok.threaded k
  obtain ⟨i, rest, hl⟩ : ∃ i rest, a.freeList k = i :: rest := by
    cases hl : a.freeList k with
    | nil =>
        rw [hl] at chain
        exact absurd chain head
    | cons i rest => exact ⟨i, rest, rfl⟩
  rw [hl] at chain
  obtain ⟨hi, _, hrest⟩ := chain
  have count : a.recycler.freeCount k = rest.length + 1 := by
    have := congrArg List.length hl
    simpa [freeList] using this
  set a' : Arena := { a with recycler := { a.recycler with
    freeHead := Function.update a.recycler.freeHead k (a.readLink k (a.recycler.freeHead k))
    freeCount := Function.update a.recycler.freeCount k (a.recycler.freeCount k - 1) } } with ha'
  have free : ∀ k', a.freeList k' = only k [a.recycler.freeHead k] k' ++ a'.freeList k' := by
    intro k'
    by_cases hk : k' = k
    · subst hk
      rw [only_self, hl, hi]
      refine congrArg (i :: ·) ?_
      simp only [ha', freeList, Function.update_self, count, Nat.add_sub_cancel]
      rw [hi]
      exact hrest.followLinks_eq.symm
    · rw [only_of_ne hk, List.nil_append]
      simp only [ha', freeList, Function.update_of_ne hk]
      rfl
  have nodup := ok.nodup
  have below := ok.below
  simp only [free] at nodup below
  have held : ∀ k' i', a'.Held k' i' ↔ a.Held k' i' ∨ i' ∈ only k [a.recycler.freeHead k] k' := by
    intro k' i'
    simp only [Held, free k', List.mem_append, not_or]
    constructor
    · rintro ⟨hb, hf, hp⟩
      by_cases hm : i' ∈ only k [a.recycler.freeHead k] k'
      · exact .inr hm
      · exact .inl ⟨hb, ⟨hm, hf⟩, hp⟩
    · rintro (⟨hb, ⟨_, hf⟩, hp⟩ | hm)
      · exact ⟨hb, hf, hp⟩
      · have out := List.nodup_append.mp (List.append_assoc _ _ _ ▸ nodup k')
        refine ⟨below k' i' (by simp [hm]), fun hf => ?_, fun hp => ?_⟩
        · exact out.2.2 i' hm i' (List.mem_append_left _ hf) rfl
        · exact out.2.2 i' hm i' (List.mem_append_right _ hp) rfl
  have threaded : ∀ k', Threaded (a'.readLink k') (a'.recycler.freeHead k') (a'.freeList k') := by
    intro k'
    have chain := ok.threaded k'
    rw [free] at chain
    by_cases hk : k' = k
    · subst hk
      rw [only_self] at chain
      simp only [ha', Function.update_self]
      exact chain.2.2
    · rw [only_of_ne hk] at chain
      simp only [ha', Function.update_of_ne hk]
      exact chain
  exact {
    ok := { ok with
      threaded := threaded
      nodup := fun k' => (nodup k').sublist
        ((List.sublist_append_right _ _).append_right _)
      below := fun k' i' hi => below k' i' (by
        rw [List.append_assoc]
        exact List.mem_append_right _ hi) }
    capacity := rfl
    pins := rfl
    bumped := fun _ => le_rfl
    nodup := fun k' => by
      by_cases hk : k' = k
      · subst hk
        simp
      · simp [only_of_ne hk]
    held := held
    shields := fun e _ k' i' hs => by
      have out := hs.2.1
      rw [free, List.mem_append, not_or] at out
      exact ⟨⟨hs.1, out.2, hs.2.2.1, hs.2.2.2⟩, .refl a k' i', out.1⟩ }

/-- The next slot of a class, with the cursor moved past it. -/
theorem bump_eq {a a' : Arena} (ok : a.Ok) {k : SlotClass} {idx : Nat}
    (h : a.bump k = some (idx, a')) :
    idx = a.bumped k ∧ (∀ k', a'.bumped k' = a.bumped k' + (only k [idx] k').length) ∧
      a'.bumped .interior < 2 ^ 31 ∧ a'.low % chunkSlot = 0 ∧ a'.high % interiorSlot = 0 ∧
      a'.low ≤ a'.high ∧ a'.high ≤ a.capacity ∧ a'.capacity = a.capacity ∧ a'.pins = a.pins ∧
      a'.recycler = a.recycler ∧ a'.chunks = a.chunks ∧ a'.interiors = a.interiors := by
  have hcap := ok.capacity_mod
  have hlow := ok.low_mod
  have hhigh := ok.high_mod
  have hle := ok.low_le_high
  have hle' := ok.high_le
  have hlt := ok.interior_lt
  cases k with
  | chunk =>
      simp only [bump, bumpChunk] at h
      split at h
      · cases h
      rename_i room
      simp only [Option.some.injEq, Prod.mk.injEq] at h
      obtain ⟨rfl, rfl⟩ := h
      simp only [bumped, chunkSlot, interiorSlot] at *
      refine ⟨trivial, fun k' => ?_, hlt, by omega, hhigh, by omega, hle', trivial, trivial,
        trivial, trivial, trivial⟩
      cases k'
      · simp only [only_self, List.length_singleton]
        omega
      · simp [only]
  | interior =>
      simp only [bump, bumpInterior] at h
      split at h
      · cases h
      rename_i room
      split at h
      · cases h
      rename_i tag
      simp only [Option.some.injEq, Prod.mk.injEq] at h
      obtain ⟨rfl, rfl⟩ := h
      simp only [bumped, chunkSlot, interiorSlot] at *
      refine ⟨by omega, fun k' => ?_, by omega, hlow, by omega, by omega, by omega, trivial,
        trivial, trivial, trivial, trivial⟩
      cases k'
      · simp [only]
      · simp only [only_self, List.length_singleton]
        omega

theorem bump_grows {a a' : Arena} (ok : a.Ok) {k : SlotClass} {idx : Nat}
    (h : a.bump k = some (idx, a')) : Grows a a' (only k [idx]) := by
  obtain ⟨hidx, hb, hint, hlow, hhigh, hle, hle', hcap, hpins, hrec, hch, hin⟩ := bump_eq ok h
  have link : ∀ k', a'.readLink k' = a.readLink k' := by
    intro k'
    funext i
    cases k'
    · simp only [readLink, hch]
    · simp only [readLink, hin]
  have free : ∀ k', a'.freeList k' = a.freeList k' := by
    intro k'
    simp only [freeList, link, hrec]
  have pending : ∀ k', a'.pendingSlots k' = a.pendingSlots k' := by
    intro k'
    simp only [pendingSlots, hrec]
  have mono : ∀ k', a.bumped k' ≤ a'.bumped k' := fun k' => by rw [hb]; omega
  exact {
    ok := {
      capacity_mod := hcap ▸ ok.capacity_mod
      capacity_le := hcap ▸ ok.capacity_le
      low_mod := hlow
      high_mod := hhigh
      low_le_high := hle
      high_le := hcap ▸ hle'
      interior_lt := hint
      threaded := fun k' => by
        rw [free, link, hrec]
        exact ok.threaded k'
      nodup := fun k' => by
        rw [free, pending]
        exact ok.nodup k'
      below := fun k' i hi => by
        rw [free, pending] at hi
        exact (ok.below k' i hi).trans_le (mono k') }
    capacity := hcap
    pins := hpins
    bumped := mono
    nodup := fun k' => by
      by_cases hk : k' = k
      · subst hk
        simp
      · simp [only_of_ne hk]
    held := fun k' i => by
      simp only [Held, free, pending, hb]
      by_cases hk : k' = k
      · subst hk
        simp only [only_self, List.length_singleton, List.mem_singleton]
        constructor
        · rintro ⟨lt, hf, hp⟩
          by_cases hi : i = idx
          · exact .inr hi
          · exact .inl ⟨by omega, hf, hp⟩
        · rintro (⟨lt, hf, hp⟩ | rfl)
          · exact ⟨by omega, hf, hp⟩
          · have top : ∀ j ∈ a.freeList k' ++ a.pendingSlots k', j ≠ i := fun j hj => by
              have := ok.below k' j hj
              omega
            exact ⟨by omega, fun hf => top i (List.mem_append_left _ hf) rfl,
              fun hp => top i (List.mem_append_right _ hp) rfl⟩
      · simp [only_of_ne hk]
    shields := fun e _ k' i hs => by
      refine ⟨⟨hs.1.trans_le (mono k'), by rw [free]; exact hs.2.1, by rw [hrec]; exact hs.2.2.1,
        by rw [hrec]; exact hs.2.2.2⟩, ?_, ?_⟩
      · cases k'
        · exact congrFun hch i
        · exact congrFun hin i
      · rw [mem_only]
        rintro ⟨rfl, hi⟩
        have := hs.1
        rw [List.mem_singleton] at hi
        omega }

/-- `c` is `b` with slots rewritten that are on no free list. -/
structure Rewritten (b c : Arena) : Prop where
  capacity : c.capacity = b.capacity
  pins : c.pins = b.pins
  low : c.low = b.low
  high : c.high = b.high
  recycler : c.recycler = b.recycler
  link : ∀ k, ∀ i ∈ b.freeList k, c.readLink k i = b.readLink k i

namespace Rewritten

variable {b c : Arena}

theorem bumped (h : Rewritten b c) (k : SlotClass) : c.bumped k = b.bumped k := by
  cases k
  · simp only [Arena.bumped, h.low]
  · simp only [Arena.bumped, h.high, h.capacity]

theorem chain (h : Rewritten b c) (ok : b.Ok) (k : SlotClass) :
    Threaded (c.readLink k) (c.recycler.freeHead k) (b.freeList k) := by
  rw [h.recycler]
  exact (ok.threaded k).congr (h.link k)

theorem free (h : Rewritten b c) (ok : b.Ok) (k : SlotClass) : c.freeList k = b.freeList k := by
  have := (h.chain ok k).followLinks_eq
  simp only [freeList, followLinks_length] at this ⊢
  rw [h.recycler] at this ⊢
  exact this

theorem pending (h : Rewritten b c) (k : SlotClass) : c.pendingSlots k = b.pendingSlots k := by
  simp only [pendingSlots, h.recycler]

theorem held (h : Rewritten b c) (ok : b.Ok) (k : SlotClass) (i : Nat) :
    c.Held k i ↔ b.Held k i := by
  simp only [Held, h.bumped, h.free ok, h.pending]

theorem ok (h : Rewritten b c) (ok : b.Ok) : c.Ok where
  capacity_mod := h.capacity ▸ ok.capacity_mod
  capacity_le := h.capacity ▸ ok.capacity_le
  low_mod := h.low ▸ ok.low_mod
  high_mod := h.high ▸ ok.high_mod
  low_le_high := h.low ▸ h.high ▸ ok.low_le_high
  high_le := h.high ▸ h.capacity ▸ ok.high_le
  interior_lt := by rw [h.bumped]; exact ok.interior_lt
  threaded k := by rw [h.free ok]; exact h.chain ok k
  nodup k := by rw [h.free ok, h.pending]; exact ok.nodup k
  below k i hi := by
    rw [h.free ok, h.pending] at hi
    rw [h.bumped]
    exact ok.below k i hi

end Rewritten

/-- Rewriting slots off the free lists changes no account. -/
theorem grows_of_rewrite {a b c : Arena} {F : SlotClass → List Nat} (h : Grows a b F)
    (capacity : c.capacity = b.capacity) (pins : c.pins = b.pins) (low : c.low = b.low)
    (high : c.high = b.high) (recycler : c.recycler = b.recycler)
    (node : ∀ k i, i ∉ F k → SameNode b c k i) : Grows a c F := by
  have rewritten : Rewritten b c := ⟨capacity, pins, low, high, recycler, fun k i hi =>
    (node k i fun hF => (h.heldNew hF).2.1 hi).readLink⟩
  exact {
    ok := rewritten.ok h.ok
    capacity := capacity.trans h.capacity
    pins := pins.trans h.pins
    bumped := fun k => by rw [rewritten.bumped]; exact h.bumped k
    nodup := h.nodup
    held := fun k i => by rw [rewritten.held h.ok, h.held]
    shields := fun e he k i hs => by
      obtain ⟨hs, same, out⟩ := h.shields e he k i hs
      refine ⟨⟨?_, ?_, ?_, ?_⟩, same.trans (node k i out), out⟩
      · rw [rewritten.bumped]; exact hs.1
      · rw [rewritten.free h.ok]; exact hs.2.1
      · rw [recycler]; exact hs.2.2.1
      · rw [recycler]; exact hs.2.2.2 }

end Arena

namespace ArenaWriter

open Arena

theorem alloc_some {w w' : ArenaWriter} (ok : w.arena.Ok) {k : SlotClass} {idx : Nat}
    (h : w.alloc k = (some idx, w')) :
    Grows w.arena w'.arena (only k [idx]) ∧ w'.youngStart = w.youngStart := by
  unfold alloc at h
  split at h
  · rename_i found
    cases h
    exact ⟨popFree_grows ok found, rfl⟩
  · split at h
    · rename_i found
      cases h
      exact ⟨bump_grows ok found, rfl⟩
    · have reclaimed := reclaimReady_reclaimed ok
      dsimp only at h
      split at h
      · rename_i found
        cases h
        have joined := reclaimed.grows.trans (popFree_grows reclaimed.ok found)
        simp only [List.nil_append] at joined
        exact ⟨joined, rfl⟩
      · cases h

theorem alloc_none {w w' : ArenaWriter} (ok : w.arena.Ok) {k : SlotClass}
    (h : w.alloc k = (none, w')) :
    Grows w.arena w'.arena (fun _ => []) ∧ w'.youngStart = w.youngStart := by
  unfold alloc at h
  split at h
  · cases h
  · split at h
    · cases h
    · dsimp only at h
      split at h
      · cases h
      · cases h
        exact ⟨(reclaimReady_reclaimed ok).grows, rfl⟩

theorem allocWriteChunk_some {w w' : ArenaWriter} (ok : w.arena.Ok) {val : Chunk} {idx : Nat}
    (h : w.allocWriteChunk val = (some idx, w')) :
    Grows w.arena w'.arena (only .chunk [idx]) ∧ w'.arena.chunks idx = val ∧
      w'.youngStart = w.youngStart := by
  unfold allocWriteChunk allocChunk at h
  split at h
  · cases h
  rename_i found
  cases h
  obtain ⟨grows, young⟩ := alloc_some ok found
  refine ⟨grows_of_rewrite grows rfl rfl rfl rfl rfl fun k i hi => ?_, ?_, young⟩
  · cases k
    · rw [only_self, List.mem_singleton] at hi
      exact Function.update_of_ne hi _ _
    · rfl
  · exact Function.update_self ..

theorem allocWriteChunk_none {w w' : ArenaWriter} (ok : w.arena.Ok) {val : Chunk}
    (h : w.allocWriteChunk val = (none, w')) :
    Grows w.arena w'.arena (fun _ => []) ∧ w'.youngStart = w.youngStart := by
  unfold allocWriteChunk allocChunk at h
  split at h
  · rename_i failed
    cases h
    exact alloc_none ok failed
  · cases h

theorem allocWriteInterior_some {w w' : ArenaWriter} (ok : w.arena.Ok) {val : Interior}
    {idx : Nat} (h : w.allocWriteInterior val = (some idx, w')) :
    Grows w.arena w'.arena (only .interior [idx]) ∧ w'.arena.interiors idx = val ∧
      w'.youngStart = w.youngStart := by
  unfold allocWriteInterior allocInterior at h
  split at h
  · cases h
  rename_i found
  cases h
  obtain ⟨grows, young⟩ := alloc_some ok found
  refine ⟨grows_of_rewrite grows rfl rfl rfl rfl rfl fun k i hi => ?_, ?_, young⟩
  · cases k
    · rfl
    · rw [only_self, List.mem_singleton] at hi
      exact Function.update_of_ne hi _ _
  · exact Function.update_self ..

theorem allocWriteInterior_none {w w' : ArenaWriter} (ok : w.arena.Ok) {val : Interior}
    (h : w.allocWriteInterior val = (none, w')) :
    Grows w.arena w'.arena (fun _ => []) ∧ w'.youngStart = w.youngStart := by
  unfold allocWriteInterior allocInterior at h
  split at h
  · rename_i failed
    cases h
    exact alloc_none ok failed
  · cases h

theorem enqueue_slots (queue : List PendingBatch) (batch : PendingBatch) (stamp grace : Nat)
    (k : SlotClass) :
    ((enqueue queue batch stamp grace).flatMap fun b => b.slots k) =
      (queue.flatMap fun b => b.slots k) ++ batch.slots k := by
  unfold enqueue
  split
  · rename_i empty
    simp only [PendingBatch.len, Nat.add_eq_zero_iff, List.length_eq_zero_iff] at empty
    cases k
    · rw [empty.1, List.append_nil]
    · rw [empty.2, List.append_nil]
  · split
    · rename_i back hback
      have whole : queue = queue.dropLast ++ [back] := by
        obtain ⟨ne, rfl⟩ := List.mem_getLast?_eq_getLast hback
        exact (List.dropLast_append_getLast ne).symm
      split
      · conv_rhs => rw [whole]
        simp only [List.flatMap_append, List.flatMap_cons, List.flatMap_nil, List.append_nil,
          List.append_assoc]
      · simp
    · simp

/-- A slot of an enqueued batch waits at least for the incoming stamp; a slot queued
before waits at least as long as before. -/
theorem mem_enqueue {queue : List PendingBatch} {batch : PendingBatch} {stamp grace : Nat}
    {b : PendingBatch} (hb : b ∈ enqueue queue batch stamp grace) {k : SlotClass} {i : Nat}
    (hi : i ∈ b.slots k) :
    (i ∈ batch.slots k ∧ stamp ≤ b.stampEpoch) ∨
      ∃ c ∈ queue, i ∈ c.slots k ∧ c.stampEpoch ≤ b.stampEpoch := by
  unfold enqueue at hb
  split at hb
  · exact .inr ⟨b, hb, hi, le_rfl⟩
  · have plain : ∀ {q}, b ∈ q ++ [(⟨stamp, grace, batch.slots⟩ : PendingBatch)] → q = queue →
        (i ∈ batch.slots k ∧ stamp ≤ b.stampEpoch) ∨
          ∃ c ∈ queue, i ∈ c.slots k ∧ c.stampEpoch ≤ b.stampEpoch := by
      rintro q hq rfl
      rcases List.mem_append.mp hq with hq | hq
      · exact .inr ⟨b, hq, hi, le_rfl⟩
      · rw [List.mem_singleton] at hq
        subst hq
        exact .inl ⟨hi, le_rfl⟩
    split at hb
    · rename_i back hback
      split at hb
      · rcases List.mem_append.mp hb with hb | hb
        · exact .inr ⟨b, (List.dropLast_sublist queue).subset hb, hi, le_rfl⟩
        · rw [List.mem_singleton] at hb
          subst hb
          rcases List.mem_append.mp hi with hi | hi
          · exact .inr ⟨back, List.mem_of_getLast? hback, hi, le_max_left ..⟩
          · exact .inl ⟨hi, le_max_right ..⟩
      · exact plain hb rfl
    · exact plain hb rfl

/-- What stamping a log leaves: its slots are no longer held, and a slot shielded for a
pinned epoch stays so unless the log gave it up too early. -/
structure Retired (w : ArenaWriter) (log : RetireLog) (stamp : Nat) (w' : ArenaWriter) :
    Prop where
  ok : w'.arena.Ok
  youngStart : w'.youngStart = w.youngStart
  capacity : w'.arena.capacity = w.arena.capacity
  pins : w'.arena.pins = w.arena.pins
  bumped : ∀ k, w'.arena.bumped k = w.arena.bumped k
  held : ∀ k i, w'.arena.Held k i ↔ w.arena.Held k i ∧ i ∉ log.slots k
  shields : ∀ e, w.arena.pins.min ≤ e → ∀ k i, w.arena.Shields e k i →
    (i ∈ log.slots k → i < w.youngStart k ∧ e < stamp) →
    w'.arena.Shields e k i ∧ SameNode w.arena w'.arena k i

theorem retire_retired {w : ArenaWriter} (ok : w.arena.Ok) {log : RetireLog} {stamp : Nat}
    (nodup : ∀ k, (log.slots k).Nodup) (held : ∀ k, ∀ i ∈ log.slots k, w.arena.Held k i) :
    Retired w log stamp (w.retire log stamp).1 ∧ ∀ k, (w.retire log stamp).2.slots k = [] := by
  unfold retire
  split
  · rename_i empty
    have none : ∀ k, log.slots k = [] := by
      simp only [RetireLog.isEmpty, Bool.and_eq_true, List.isEmpty_iff] at empty
      intro k
      cases k
      · exact empty.1
      · exact empty.2
    refine ⟨⟨ok, rfl, rfl, rfl, fun _ => rfl, fun k i => ?_, fun e _ k i hs _ => ?_⟩, none⟩
    · simp [none]
    · exact ⟨hs, .refl _ k i⟩
  · refine ⟨?_, fun _ => rfl⟩
    dsimp only
    generalize w.arena.gate.phase + 2 = grace
    set young : PendingBatch :=
      ⟨0, 0, fun k => (log.slots k).filter fun idx => decide (w.youngStart k ≤ idx)⟩ with hyoung
    set old : PendingBatch :=
      ⟨0, 0, fun k => (log.slots k).filter fun idx => !decide (w.youngStart k ≤ idx)⟩ with hold
    set queued : Arena := { w.arena with recycler := { w.arena.recycler with
      pendingYoung := enqueue w.arena.recycler.pendingYoung young stamp grace
      pendingOld := enqueue w.arena.recycler.pendingOld old stamp grace } } with hq
    have free : ∀ k, queued.freeList k = w.arena.freeList k := fun _ => rfl
    have halves : ∀ k, (young.slots k ++ old.slots k).Perm (log.slots k) := fun k =>
      List.filter_append_perm _ _
    have pending : ∀ k, (queued.pendingSlots k).Perm (w.arena.pendingSlots k ++ log.slots k) := by
      intro k
      simp only [pendingSlots, hq, List.flatMap_append, enqueue_slots]
      generalize (w.arena.recycler.pendingYoung.flatMap fun b => b.slots k) = p
      generalize (w.arena.recycler.pendingOld.flatMap fun b => b.slots k) = q
      calc p ++ young.slots k ++ (q ++ old.slots k)
          _ = p ++ (young.slots k ++ q) ++ old.slots k := by simp only [List.append_assoc]
          List.Perm _ (p ++ (q ++ young.slots k) ++ old.slots k) :=
            (List.perm_append_comm.append_left p).append_right _
          _ = p ++ q ++ (young.slots k ++ old.slots k) := by simp only [List.append_assoc]
          List.Perm _ (p ++ q ++ log.slots k) := (halves k).append_left _
    have okq : queued.Ok := { ok with
      threaded := ok.threaded
      nodup := fun k => by
        refine List.Nodup.perm ?_ (((pending k).symm).append_left _)
        rw [free, ← List.append_assoc]
        refine List.nodup_append.mpr ⟨ok.nodup k, nodup k, fun i hi j hj same => ?_⟩
        subst same
        obtain ⟨_, hf, hp⟩ := held k i hj
        exact (List.mem_append.mp hi).elim hf hp
      below := fun k i hi => by
        rw [free, List.mem_append, (pending k).mem_iff, List.mem_append] at hi
        rcases hi with hi | hi | hi
        · exact ok.below k i (List.mem_append_left _ hi)
        · exact ok.below k i (List.mem_append_right _ hi)
        · exact (held k i hi).1 }
    have reclaimed := reclaimReady_reclaimed okq
    refine ⟨reclaimed.ok, rfl, reclaimed.capacity, reclaimed.pins, reclaimed.bumped,
      fun k i => ?_, fun e he k i hs waits => ?_⟩
    · rw [reclaimed.held]
      simp only [Held, free, (pending k).mem_iff, List.mem_append, not_or]
      constructor
      · rintro ⟨hb, hf, hp, hl⟩
        exact ⟨⟨hb, hf, hp⟩, hl⟩
      · rintro ⟨⟨hb, hf, hp⟩, hl⟩
        exact ⟨hb, hf, hp, hl⟩
    · have shielded : queued.Shields e k i := by
        refine ⟨hs.1, hs.2.1, fun b hb hi => ?_, fun b hb hi => ?_⟩
        · rcases mem_enqueue hb hi with ⟨hi, _⟩ | ⟨c, hc, hi, _⟩
          · rw [hyoung, List.mem_filter, decide_eq_true_eq] at hi
            have := (waits hi.1).1
            omega
          · exact hs.2.2.1 c hc hi
        · rcases mem_enqueue hb hi with ⟨hi, le⟩ | ⟨c, hc, hi, le⟩
          · rw [hold, List.mem_filter] at hi
            exact (waits hi.1).2.trans_le le
          · exact (hs.2.2.2 c hc hi).trans_le le
      obtain ⟨hs', same⟩ := reclaimed.shields e he k i shielded
      exact ⟨hs', by cases k <;> exact same⟩

end ArenaWriter

end AetherGraph
