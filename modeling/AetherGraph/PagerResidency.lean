import AetherGraph.Foundation.EventLog
import AetherGraph.Pager

/-! The pager's residency over every sequence of faults: the budget, the evictability of what is
resident, which page is evicted, and what is installed without its content. -/

namespace AetherGraph

open Foundation

namespace Pager

variable {α : Type}

section History

/-- The pages recorded as resident, in order. -/
def records (log : List (PagerEffect α)) : List Nat :=
  log.filterMap fun
    | .record page => some page
    | _ => none

/-- The pages recorded and not evicted since. -/
def residentOf (log : List (PagerEffect α)) : List Nat :=
  log.foldl (fun pages effect =>
    match effect with
    | .record page => touch pages page
    | .evict victim _ => pages.filter fun page => decide (page ≠ victim)
    | _ => pages) []

/-- The last `protect` pages recorded, the latest last. -/
def lastInstalls (protect : Nat) (log : List (PagerEffect α)) : List Nat :=
  (recency (records log)).rtake protect

/-- What an effect must be after the effects before it: a victim comes first by weight and page
among the resident pages that are neither the faulting page nor among the last installs. -/
def VictimLeast (weights : List Nat) (protect : Nat) (before : List (PagerEffect α)) :
    PagerEffect α → Prop
  | .evict victim keep =>
      victim ∈ residentOf before ∧ victim ≠ keep ∧ victim ∉ lastInstalls protect before ∧
        ∀ page ∈ residentOf before, page ≠ keep → page ∉ lastInstalls protect before →
          queueLe (weights.getD victim 0, victim) (weights.getD page 0, page)
  | _ => True

/-- Content comes from the source at the page's offset; zeros, and the release of the region, come
after a failure was recorded. -/
def Sourced (faults : List (Fault α)) (pageSize : Nat) (before : List (PagerEffect α)) :
    PagerEffect α → Prop
  | .copy page content =>
      ∃ fault ∈ faults, ∃ attempt, fault.fill (page * pageSize) attempt = .ok content
  | .zero _ | .unregister => ∃ reason, .fail reason ∈ before
  | _ => True

theorem records_concat (log : List (PagerEffect α)) (effect : PagerEffect α) :
    records (log ++ [effect]) = records log ++ records [effect] := List.filterMap_append

theorem lastInstalls_record (protect : Nat) (log : List (PagerEffect α)) (page : Nat) :
    lastInstalls protect (log ++ [.record page]) =
      (touch (lastInstalls protect log) page).rtake protect := by
  unfold lastInstalls
  rw [records_concat, show records ([.record page] : List (PagerEffect α)) = [page] from rfl,
    recency_concat, rtake_touch (recency_nodup _)]

theorem residentOf_concat (log : List (PagerEffect α)) (effect : PagerEffect α) :
    residentOf (log ++ [effect]) =
      match effect with
      | .record page => touch (residentOf log) page
      | .evict victim _ => (residentOf log).filter fun page => decide (page ≠ victim)
      | _ => residentOf log := by
  unfold residentOf
  rw [List.foldl_append]
  rfl

end History

section Frame

/-- The fixed geometry of a pager. -/
structure Frame (s s' : Pager α) : Prop where
  base : s'.base = s.base
  pageSize : s'.pageSize = s.pageSize
  budget : s'.budgetPages = s.budgetPages
  weights : s'.weights = s.weights
  protect : s'.protect = s.protect

theorem Frame.refl (s : Pager α) : Frame s s := ⟨rfl, rfl, rfl, rfl, rfl⟩

theorem Frame.trans {s s' s'' : Pager α} (h : Frame s s') (h' : Frame s' s'') : Frame s s'' :=
  ⟨h'.base.trans h.base, h'.pageSize.trans h.pageSize, h'.budget.trans h.budget,
    h'.weights.trans h.weights, h'.protect.trans h.protect⟩

variable (s : Pager α)

theorem frame_removeVictim (victim keep : Nat) : Frame s (s.removeVictim victim keep) := by
  unfold removeVictim
  dsimp only
  split_ifs <;> exact ⟨rfl, rfl, rfl, rfl, rfl⟩

theorem frame_evictOne (keep : Nat) (madvise : Nat → Except Nat Unit) :
    Frame s (s.evictOne keep madvise).2 := by
  have popped : Frame s (s.popVictim keep).2 := ⟨rfl, rfl, rfl, rfl, rfl⟩
  unfold evictOne
  generalize s.popVictim keep = result at popped
  obtain ⟨victim, s'⟩ := result
  cases victim with
  | none => exact popped
  | some victim =>
      dsimp only
      cases retryTransient madvise with
      | error errno => exact popped
      | ok => exact popped.trans (frame_removeVictim _ victim keep)

theorem frame_evictDown (keep : Nat) (madvise : Nat → Nat → Except Nat Unit) (fuel i : Nat) :
    Frame s (evictDown keep madvise fuel i s).2 := by
  induction fuel generalizing i s with
  | zero => exact Frame.refl s
  | succ fuel ih =>
      have one := s.frame_evictOne keep (madvise i)
      unfold evictDown
      split_ifs
      · rcases ran : s.evictOne keep (madvise i) with ⟨e | b, s'⟩
        · rw [ran] at one
          exact one
        · rw [ran] at one
          cases b with
          | false => exact one
          | true => exact one.trans (ih s' (i + 1))
      · exact Frame.refl s

theorem frame_copyPage (page : Nat) (content : α) (copy : Nat → Except Nat Unit) :
    Frame s (s.copyPage page content copy).2 := by
  unfold copyPage
  dsimp only
  split_ifs <;> exact ⟨rfl, rfl, rfl, rfl, rfl⟩

theorem frame_serviceFault (fault : Fault α) : Frame s (s.serviceFault fault).2 := by
  have down := s.frame_evictDown (s.pageOf fault.addr) fault.madvise s.resident.keys.length 0
  unfold serviceFault
  dsimp only
  generalize evictDown (s.pageOf fault.addr) fault.madvise s.resident.keys.length 0 s = ran at down
  obtain ⟨e | _, s'⟩ := ran
  · exact down
  · dsimp only
    cases fillRetrying (fault.fill (s.pageOf fault.addr * s'.pageSize)) with
    | error e => exact down
    | ok content => exact down.trans (frame_copyPage s' _ content fault.copy)

theorem frame_installZeroPage (page : Nat) (zeropage : Nat → Except Nat Unit) :
    Frame s (s.installZeroPage page zeropage).2 := by
  unfold installZeroPage
  dsimp only
  split_ifs <;> exact ⟨rfl, rfl, rfl, rfl, rfl⟩

end Frame

section Kept

/-- Every resident page can be evicted: its entry is in the queue, at its weight.  The window and
the map are what the history says. -/
structure Kept (s : Pager α) : Prop where
  budget : 2 ≤ s.budgetPages
  protect : s.protect ≤ s.budgetPages / 2
  sorted : s.evictQueue.Pairwise queueLe
  queued : ∀ page w, s.resident.lookup page = some w → (w, page) ∈ s.evictQueue
  weighed : ∀ page w, s.resident.lookup page = some w → w = s.weight page
  recent : s.recent = lastInstalls s.protect s.log
  pages : ∀ page, page ∈ s.resident ↔ page ∈ residentOf s.log
  victims : Throughout (VictimLeast s.weights s.protect) s.log

variable {s : Pager α}

theorem kept_new {base pageSize budgetPages : Nat} (budget : 2 ≤ budgetPages)
    (weights : List Nat) : Kept (new base pageSize budgetPages weights : Pager α) where
  budget := budget
  protect := by
    show min (max (budgetPages / 2) 1) 64 ≤ budgetPages / 2
    omega
  sorted := List.Pairwise.nil
  queued := fun page w found => by
    rw [show (new base pageSize budgetPages weights : Pager α).resident = ∅ from rfl,
      AList.lookup_empty] at found
    cases found
  weighed := fun page w found => by
    rw [show (new base pageSize budgetPages weights : Pager α).resident = ∅ from rfl,
      AList.lookup_empty] at found
    cases found
  recent := (List.rtake_nil _).symm
  pages := fun page => ⟨fun mem => absurd mem (AList.notMem_empty page),
    fun mem => absurd mem List.not_mem_nil⟩
  victims := throughout_nil

/-- A resident page has its entry. -/
theorem Kept.entry (h : Kept s) {page : Nat} (mem : page ∈ s.resident) :
    s.resident.lookup page = some (s.weight page) ∧ (s.weight page, page) ∈ s.evictQueue := by
  obtain ⟨w, found⟩ := Option.isSome_iff_exists.mp (AList.lookup_isSome.mpr mem)
  have same := h.weighed page w found
  exact ⟨same ▸ found, same ▸ h.queued page w found⟩

/-- An effect that moves no page. -/
theorem Kept.log (h : Kept s) {effect : PagerEffect α} (records_ : records [effect] = [])
    (pages : residentOf (s.log ++ [effect]) = residentOf s.log)
    (least : VictimLeast s.weights s.protect s.log effect) :
    Kept { s with log := s.log ++ [effect] } where
  budget := h.budget
  protect := h.protect
  sorted := h.sorted
  queued := h.queued
  weighed := h.weighed
  recent := by
    show s.recent = lastInstalls s.protect (s.log ++ [effect])
    rw [lastInstalls, records_concat, records_, List.append_nil]
    exact h.recent
  pages := fun page => by
    show _ ↔ page ∈ residentOf (s.log ++ [effect])
    rw [pages]
    exact h.pages page
  victims := h.victims.concat least

theorem Kept.recordInstall (h : Kept s) (page : Nat) : Kept (s.recordInstall page) where
  budget := h.budget
  protect := h.protect
  sorted := by
    show (if _ then _ else _ : List (Nat × Nat)).Pairwise queueLe
    split_ifs
    · exact h.sorted.orderedInsert _ _
    · exact h.sorted
  queued := fun p w found => by
    show (w, p) ∈ (if _ then _ else _ : List (Nat × Nat))
    have found' : (s.resident.insert page (s.weight page)).lookup p = some w := found
    rcases Decidable.em (p = page) with rfl | other
    · rw [AList.lookup_insert] at found'
      obtain rfl := Option.some.inj found'
      split_ifs with fresh
      · exact (List.mem_orderedInsert _).mpr (.inl rfl)
      · rw [Option.isNone_iff_eq_none, AList.lookup_eq_none, not_not] at fresh
        exact (h.entry fresh).2
    · rw [AList.lookup_insert_ne other] at found'
      have old := h.queued p w found'
      split_ifs
      · exact (List.mem_orderedInsert _).mpr (.inr old)
      · exact old
  weighed := fun p w found => by
    have found' : (s.resident.insert page (s.weight page)).lookup p = some w := found
    rcases Decidable.em (p = page) with rfl | other
    · rw [AList.lookup_insert] at found'
      exact (Option.some.inj found').symm
    · rw [AList.lookup_insert_ne other] at found'
      exact h.weighed p w found'
  recent := by
    show (touch s.recent page).rtake s.protect = lastInstalls s.protect (s.log ++ [.record page])
    rw [lastInstalls_record, h.recent]
  pages := fun p => by
    show p ∈ s.resident.insert page (s.weight page) ↔ p ∈ residentOf (s.log ++ [.record page])
    rw [residentOf_concat, mem_touch, AList.mem_insert, h.pages]
    exact or_comm
  victims := h.victims.concat trivial

/-- There is room for the page, or it is resident already. -/
def Room (s : Pager α) (page : Nat) : Prop :=
  s.resident.keys.length < s.budgetPages ∨
    page ∈ s.resident ∧ s.resident.keys.length ≤ s.budgetPages

theorem Room.recordInstall {page : Nat} (h : Room s page) :
    (s.recordInstall page).resident.keys.length ≤ s.budgetPages ∧
      page ∈ (s.recordInstall page).resident := by
  have keys : (s.recordInstall page).resident.keys = page :: s.resident.keys.erase page :=
    AList.keys_insert s.resident
  refine ⟨?_, (AList.mem_insert s.resident).mpr (.inl rfl)⟩
  rw [keys, List.length_cons]
  rcases h with free | ⟨mem, full⟩
  · have shorter := List.length_erase_le (a := page) (l := s.resident.keys)
    omega
  · have one := List.length_erase_add_one (AList.mem_keys.mp mem)
    omega

theorem Kept.popVictim_sorted (h : Kept s) (keep : Nat) :
    (s.popVictim keep).2.evictQueue.Pairwise queueLe :=
  pairwise_pushAll (h.sorted.sublist popLive_kept.2)

/-- Every other resident page keeps its entry. -/
theorem Kept.popVictim_queued (h : Kept s) (keep : Nat) {page w : Nat}
    (found : s.resident.lookup page = some w) (other : (s.popVictim keep).1 ≠ some page) :
    (w, page) ∈ (s.popVictim keep).2.evictQueue := by
  refine mem_pushAll.mpr ?_
  have kept := (@popLive_kept _ s.live (s.held keep) _ _ s.evictQueue).1
  rcases kept (w, page) (h.queued page w found) found with popped | aside | rest
  · exact absurd (congrArg (Option.map Prod.snd) popped) other
  · exact .inr aside
  · exact .inl rest

theorem Kept.popVictim_none (h : Kept s) {keep : Nat} (none_ : (s.popVictim keep).1 = none) :
    Kept (s.popVictim keep).2 ∧ ∀ page ∈ s.resident, page = keep ∨ page ∈ s.recent := by
  refine ⟨⟨h.budget, h.protect, h.popVictim_sorted keep, fun page w found => ?_, h.weighed,
    h.recent, h.pages, h.victims⟩, fun page mem => ?_⟩
  · exact h.popVictim_queued keep found (by rw [none_]; exact nofun)
  · obtain ⟨found, queued⟩ := h.entry mem
    exact (popLive_none (Option.map_eq_none_iff.mp none_)).1 _ queued found

theorem Kept.popVictim_some (h : Kept s) {keep victim : Nat}
    (popped : (s.popVictim keep).1 = some victim) :
    victim ∈ s.resident ∧ VictimLeast s.weights s.protect s.log (.evict victim keep) := by
  obtain ⟨⟨w, page⟩, first, rfl⟩ := Option.map_eq_some_iff.mp popped
  obtain ⟨mem, found, free, least⟩ := popLive_some h.sorted first
  have found' : s.resident.lookup page = some w := found
  have here : page ∈ s.resident := by
    rw [← AList.lookup_isSome, found']
    rfl
  have weight : w = s.weight page := h.weighed page w found'
  rw [held, not_or] at free
  refine ⟨here, (h.pages page).mp here, free.1, h.recent ▸ free.2, fun other mem' apart old => ?_⟩
  obtain ⟨foundOther, queued⟩ := h.entry ((h.pages other).mpr mem')
  have loose : ¬s.held keep (s.weight other, other) := by
    rw [held, not_or]
    exact ⟨apart, h.recent ▸ old⟩
  show queueLe (s.weight page, page) (s.weight other, other)
  rw [← weight]
  rcases least _ queued foundOther loose with same | before
  · rw [same]
    exact .inr ⟨rfl, Nat.le_refl _⟩
  · exact before

theorem mem_entries {page w : Nat} : (w, page) ∈ s.entries ↔ s.resident.lookup page = some w := by
  have looked := AList.mem_lookup_iff (a := page) (b := w) (s := s.resident)
  rw [Option.mem_def] at looked
  rw [looked, entries, List.mem_map]
  constructor
  · rintro ⟨⟨p, v⟩, mem, eq⟩
    obtain ⟨rfl, rfl⟩ := Prod.mk.inj eq
    exact mem
  · exact fun mem => ⟨⟨page, w⟩, mem, rfl⟩

/-- The victim leaves; every page left keeps its entry, or gets it back with the rebuild. -/
theorem Kept.removeVictim (h : Kept s) {keep victim : Nat}
    (popped : (s.popVictim keep).1 = some victim) :
    Kept ((s.popVictim keep).2.removeVictim victim keep) := by
  have least := (h.popVictim_some popped).2
  have lookup : ∀ page w, (s.resident.erase victim).lookup page = some w →
      page ≠ victim ∧ s.resident.lookup page = some w := by
    intro page w found
    have other : page ≠ victim := fun same => by
      rw [same, AList.lookup_erase] at found
      cases found
    rw [AList.lookup_erase_ne other] at found
    exact ⟨other, found⟩
  have weighed : ∀ page w, (s.resident.erase victim).lookup page = some w → w = s.weight page :=
    fun page w found => h.weighed page w (lookup page w found).2
  have recent : s.recent = lastInstalls s.protect (s.log ++ [.evict victim keep]) := by
    rw [lastInstalls, records_concat]
    show s.recent = (recency (records s.log ++ [])).rtake s.protect
    rw [List.append_nil]
    exact h.recent
  have pages : ∀ page, page ∈ s.resident.erase victim ↔
      page ∈ residentOf (s.log ++ [.evict victim keep]) := fun page => by
    rw [residentOf_concat, AList.mem_erase, h.pages, List.mem_filter, decide_eq_true_eq]
    exact and_comm
  have victims := h.victims.concat least
  unfold Pager.removeVictim
  dsimp only
  split_ifs with rebuilt
  · refine ⟨h.budget, h.protect, List.pairwise_insertionSort queueLe _, fun page w found => ?_,
      weighed, recent, pages, victims⟩
    exact (List.mem_insertionSort queueLe).mpr (mem_entries.mpr found)
  · refine ⟨h.budget, h.protect, h.popVictim_sorted keep, fun page w found => ?_, weighed, recent,
      pages, victims⟩
    obtain ⟨other, found⟩ := lookup page w found
    refine h.popVictim_queued keep found fun same => other ?_
    rw [popped] at same
    exact (Option.some.inj same).symm

/-- An eviction whose `MADV_DONTNEED` succeeds. -/
theorem Kept.evictOne (h : Kept s) (keep : Nat) {madvise : Nat → Except Nat Unit}
    (calm : retryTransient madvise = .ok ()) :
    (∃ s', s.evictOne keep madvise = (.ok false, s') ∧ Kept s' ∧ s'.resident = s.resident ∧
        ∀ page ∈ s.resident, page = keep ∨ page ∈ s.recent) ∨
      ∃ s', s.evictOne keep madvise = (.ok true, s') ∧ Kept s' ∧
        s'.resident.keys.length + 1 = s.resident.keys.length := by
  cases popped : (s.popVictim keep).1 with
  | none =>
      obtain ⟨kept, all⟩ := h.popVictim_none popped
      refine .inl ⟨(s.popVictim keep).2, ?_, kept, rfl, all⟩
      unfold Pager.evictOne
      rw [← Prod.eta (s.popVictim keep), popped]
  | some victim =>
      have mem := (h.popVictim_some popped).1
      refine .inr ⟨(s.popVictim keep).2.removeVictim victim keep, ?_, h.removeVictim popped, ?_⟩
      · unfold Pager.evictOne
        rw [← Prod.eta (s.popVictim keep), popped]
        dsimp only
        rw [calm]
      · have keys : ((s.popVictim keep).2.removeVictim victim keep).resident =
            s.resident.erase victim := by
          unfold Pager.removeVictim
          dsimp only
          split_ifs <;> rfl
        rw [keys, AList.keys_erase]
        exact List.length_erase_add_one (AList.mem_keys.mp mem)

/-- The evictions before an install leave room for it. -/
theorem Kept.evictDown (h : Kept s) (keep : Nat) {madvise : Nat → Nat → Except Nat Unit}
    (calm : ∀ i, retryTransient (madvise i) = .ok ()) (fuel i : Nat)
    (enough : s.resident.keys.length ≤ fuel) (size : s.resident.keys.length ≤ s.budgetPages) :
    ∃ s', evictDown keep madvise fuel i s = (.ok (), s') ∧ Kept s' ∧ Room s' keep := by
  induction fuel generalizing i s with
  | zero =>
      have budget := h.budget
      exact ⟨s, rfl, h, .inl (by omega)⟩
  | succ fuel ih =>
      unfold Pager.evictDown
      split_ifs with full
      · have frame := s.frame_evictOne keep (madvise i)
        rcases h.evictOne keep (calm i) with ⟨s', ran, kept, same, all⟩ | ⟨s', ran, kept, fewer⟩
        · rw [ran] at frame ⊢
          refine ⟨s', rfl, kept, .inr ⟨?_, ?_⟩⟩
          · by_contra absent
            rw [same] at absent
            -- every resident page would be a recent install, and those are half the budget at most
            have sub : s.resident.keys ⊆ s.recent := fun page mem => by
              have here := AList.mem_keys.mpr mem
              exact (all page here).resolve_left fun eq => absent (eq ▸ here)
            have few := (List.Nodup.subperm s.resident.keys_nodup sub).length_le
            have window : s.recent.length ≤ s.protect := by
              rw [h.recent]
              exact length_rtake_le _ _
            have protect := h.protect
            have budget := h.budget
            omega
          · rw [same, frame.budget]
            exact size
        · rw [ran] at frame ⊢
          exact ih kept (i + 1) (by omega) (by rw [frame.budget]; omega)
      · exact ⟨s, rfl, h, .inl (by omega)⟩

theorem Room.size {page : Nat} (h : Room s page) : s.resident.keys.length ≤ s.budgetPages := by
  rcases h with free | ⟨_, full⟩
  · exact Nat.le_of_lt free
  · exact full

/-- Once the page is recorded, giving it content or zeros moves no page. -/
theorem Kept.install (h : Kept s) {page : Nat} (room : Room s page) (effect : PagerEffect α)
    (records_ : records [effect] = [])
    (pages : ∀ log : List (PagerEffect α), residentOf (log ++ [effect]) = residentOf log)
    (least : ∀ log, VictimLeast s.weights s.protect log effect) :
    Kept (s.recordInstall page) ∧ Room (s.recordInstall page) page ∧
      Kept { s.recordInstall page with log := (s.recordInstall page).log ++ [effect] } := by
  have recorded := h.recordInstall page
  obtain ⟨size, mem⟩ := room.recordInstall
  exact ⟨recorded, .inr ⟨mem, size⟩, recorded.log records_ (pages _) (least _)⟩

/-- The counter of faults and the health are not looked at. -/
theorem Kept.status (h : Kept s) (failed running : Bool) (reason : Option PagerError)
    (faults : Nat) :
    Kept { s with failed := failed, reason := reason, faults := faults, running := running } :=
  ⟨h.budget, h.protect, h.sorted, h.queued, h.weighed, h.recent, h.pages, h.victims⟩

theorem Kept.copyPage (h : Kept s) {page : Nat} (room : Room s page) (content : α)
    (copy : Nat → Except Nat Unit) :
    Kept (s.copyPage page content copy).2 ∧ Room (s.copyPage page content copy).2 page := by
  obtain ⟨kept, room, logged⟩ := h.install room (.copy page content) rfl
    (fun log => residentOf_concat log _) fun _ => trivial
  unfold Pager.copyPage
  dsimp only
  split_ifs
  · exact ⟨logged.status _ _ _ _, room⟩
  · exact ⟨kept.status _ _ _ _, room⟩

theorem Kept.installZeroPage (h : Kept s) {page : Nat} (room : Room s page)
    (zeropage : Nat → Except Nat Unit) :
    Kept (s.installZeroPage page zeropage).2 ∧ Room (s.installZeroPage page zeropage).2 page := by
  obtain ⟨kept, room, logged⟩ := h.install room (.zero page) rfl
    (fun log => residentOf_concat log _) fun _ => trivial
  unfold Pager.installZeroPage
  dsimp only
  split_ifs
  · exact ⟨logged, room⟩
  · exact ⟨kept, room⟩

theorem Kept.fail (h : Kept s) (e : PagerError) : Kept (s.fail e) :=
  (h.log rfl (residentOf_concat s.log (.fail e)) trivial).status true s.running
    (s.reason.or (some e)) s.faults

theorem Kept.unregisterAll (h : Kept s) : Kept s.unregisterAll :=
  (h.log rfl (residentOf_concat s.log .unregister) trivial).status s.failed false s.reason s.faults

/-- No eviction of the fault fails for good. -/
def Calm (fault : Fault α) : Prop := ∀ i, retryTransient (fault.madvise i) = .ok ()

theorem Kept.serviceFault (h : Kept s) {fault : Fault α} (calm : Calm fault)
    (size : s.resident.keys.length ≤ s.budgetPages) :
    Kept (s.serviceFault fault).2 ∧ Room (s.serviceFault fault).2 (s.pageOf fault.addr) := by
  obtain ⟨s', ran, kept, room⟩ := h.evictDown (s.pageOf fault.addr) calm _ 0 (Nat.le_refl _) size
  unfold Pager.serviceFault
  dsimp only
  rw [ran]
  dsimp only
  cases fillRetrying (fault.fill (s.pageOf fault.addr * s'.pageSize)) with
  | error e => exact ⟨kept, room⟩
  | ok content => exact kept.copyPage room content fault.copy

theorem Kept.serve (h : Kept s) {fault : Fault α} (calm : Calm fault)
    (size : s.resident.keys.length ≤ s.budgetPages) :
    Kept (s.serve fault) ∧ (s.serve fault).resident.keys.length ≤ (s.serve fault).budgetPages := by
  obtain ⟨kept, room⟩ := h.serviceFault calm size
  have frame := s.frame_serviceFault fault
  unfold Pager.serve
  split_ifs with running
  · generalize s.serviceFault fault = result at kept room frame
    obtain ⟨e | _, s'⟩ := result
    · have same : s'.pageOf fault.addr = s.pageOf fault.addr := by
        unfold pageOf
        rw [frame.base, frame.pageSize]
      have zeroed := (kept.fail e).installZeroPage room fault.zeropage
      dsimp only
      rw [same]
      generalize (s'.fail e).installZeroPage (s.pageOf fault.addr) fault.zeropage = last at zeroed
      obtain ⟨e' | _, s''⟩ := last
      · exact ⟨zeroed.1.unregisterAll, zeroed.2.size⟩
      · exact ⟨zeroed.1, zeroed.2.size⟩
    · exact ⟨kept, room.size⟩
  · exact ⟨h, size⟩

theorem frame_serve (s : Pager α) (fault : Fault α) : Frame s (s.serve fault) := by
  have serviced := s.frame_serviceFault fault
  unfold Pager.serve
  split_ifs
  · generalize s.serviceFault fault = result at serviced
    obtain ⟨e | _, s'⟩ := result
    · have zeroed := (s'.fail e).frame_installZeroPage (s'.pageOf fault.addr) fault.zeropage
      have failed : Frame s' (s'.fail e) := ⟨rfl, rfl, rfl, rfl, rfl⟩
      dsimp only
      generalize (s'.fail e).installZeroPage (s'.pageOf fault.addr) fault.zeropage = last at zeroed
      obtain ⟨e' | _, s''⟩ := last
      · have released : Frame s'' s''.unregisterAll := ⟨rfl, rfl, rfl, rfl, rfl⟩
        exact serviced.trans (failed.trans (zeroed.trans released))
      · exact serviced.trans (failed.trans zeroed)
    · exact serviced
  · exact Frame.refl s

/-- A run of the pager whose evictions do not fail for good. -/
theorem Kept.run (h : Kept s) (size : s.resident.keys.length ≤ s.budgetPages)
    {faults : List (Fault α)} (calm : ∀ fault ∈ faults, Calm fault) :
    Kept (s.run faults) ∧ Frame s (s.run faults) ∧
      (s.run faults).resident.keys.length ≤ (s.run faults).budgetPages := by
  induction faults generalizing s with
  | nil => exact ⟨h, Frame.refl s, size⟩
  | cons fault faults ih =>
      obtain ⟨first, later⟩ := List.forall_mem_cons.mp calm
      obtain ⟨kept, fits⟩ := h.serve first size
      obtain ⟨kept, frame, fits⟩ := ih kept fits later
      exact ⟨kept, (s.frame_serve fault).trans frame, fits⟩

end Kept

section Sources

/-- What has been installed is accounted for, by the faults so far. -/
def Accounted (faults : List (Fault α)) (s : Pager α) : Prop :=
  Throughout (Sourced faults s.pageSize) s.log

variable {s : Pager α} {faults : List (Fault α)}

theorem Accounted.log (h : Accounted faults s) (effect : PagerEffect α)
    (sourced : Sourced faults s.pageSize s.log effect) :
    Accounted faults { s with log := s.log ++ [effect] } := h.concat sourced

theorem fillRetrying_ok {fill : Nat → Except PagerError α} {content : α}
    (filled : fillRetrying fill = .ok content) : ∃ attempt, fill attempt = .ok content := by
  have attempts : ∀ more done, fillRetrying.attempts fill more done = .ok content →
      ∃ attempt, fill attempt = .ok content := by
    intro more
    induction more with
    | zero => exact fun done filled => ⟨done, filled⟩
    | succ more ih =>
        intro done filled
        unfold fillRetrying.attempts at filled
        cases tried : fill done with
        | error e =>
            simp only [tried] at filled
            split_ifs at filled
            exact ih _ filled
        | ok page =>
            simp only [tried] at filled
            exact ⟨done, tried.trans filled⟩
  exact attempts 99 0 filled

theorem Accounted.evictOne (h : Accounted faults s) (keep : Nat)
    (madvise : Nat → Except Nat Unit) : Accounted faults (s.evictOne keep madvise).2 := by
  have popped : Accounted faults (s.popVictim keep).2 := h
  unfold Pager.evictOne
  generalize s.popVictim keep = result at popped
  obtain ⟨victim, s'⟩ := result
  cases victim with
  | none => exact popped
  | some victim =>
      dsimp only
      cases retryTransient madvise with
      | error errno => exact popped
      | ok =>
          have evicted := popped.log (.evict victim keep) trivial
          unfold removeVictim
          dsimp only
          split_ifs <;> exact evicted

theorem Accounted.evictDown (h : Accounted faults s) (keep : Nat)
    (madvise : Nat → Nat → Except Nat Unit) (fuel i : Nat) :
    Accounted faults (evictDown keep madvise fuel i s).2 := by
  induction fuel generalizing i s with
  | zero => exact h
  | succ fuel ih =>
      have one := h.evictOne keep (madvise i)
      unfold Pager.evictDown
      split_ifs
      · generalize s.evictOne keep (madvise i) = ran at one
        obtain ⟨e | b, s'⟩ := ran
        · exact one
        · cases b with
          | false => exact one
          | true => exact ih one (i + 1)
      · exact h

theorem Accounted.serviceFault (h : Accounted faults s) {fault : Fault α}
    (mem : fault ∈ faults) : Accounted faults (s.serviceFault fault).2 := by
  have down := h.evictDown (s.pageOf fault.addr) fault.madvise s.resident.keys.length 0
  unfold Pager.serviceFault
  dsimp only
  generalize Pager.evictDown (s.pageOf fault.addr) fault.madvise _ 0 s = ran at down
  obtain ⟨e | _, s'⟩ := ran
  · exact down
  · dsimp only
    cases filled : fillRetrying (fault.fill (s.pageOf fault.addr * s'.pageSize)) with
    | error e => exact down
    | ok content =>
        have recorded := Accounted.log down (.record (s.pageOf fault.addr)) trivial
        unfold Pager.copyPage
        dsimp only
        split_ifs
        · exact recorded.concat ⟨fault, mem, fillRetrying_ok filled⟩
        · exact recorded

/-- Zeros are installed once a failure is recorded. -/
theorem Accounted.installZeroPage (h : Accounted faults s) (failed : ∃ e, .fail e ∈ s.log)
    (page : Nat) (zeropage : Nat → Except Nat Unit) :
    Accounted faults (s.installZeroPage page zeropage).2 ∧
      ∃ e, .fail e ∈ (s.installZeroPage page zeropage).2.log := by
  obtain ⟨e, mem⟩ := failed
  have recorded := h.log (.record page) trivial
  have noted : .fail e ∈ s.log ++ [.record page] := List.mem_append_left _ mem
  unfold Pager.installZeroPage
  dsimp only
  split_ifs
  · exact ⟨recorded.concat ⟨e, noted⟩, e, List.mem_append_left _ noted⟩
  · exact ⟨recorded, e, noted⟩

theorem Accounted.serve (h : Accounted faults s) {fault : Fault α} (mem : fault ∈ faults) :
    Accounted faults (s.serve fault) := by
  have serviced := h.serviceFault mem
  unfold Pager.serve
  split_ifs
  · generalize s.serviceFault fault = result at serviced
    obtain ⟨e | _, s'⟩ := result
    · have failed : Accounted faults (s'.fail e) := Accounted.log serviced (.fail e) trivial
      have zeroed := failed.installZeroPage
        ⟨e, List.mem_append_right _ List.mem_cons_self⟩ (s'.pageOf fault.addr) fault.zeropage
      dsimp only
      generalize (s'.fail e).installZeroPage (s'.pageOf fault.addr) fault.zeropage = last at zeroed
      obtain ⟨e' | _, s''⟩ := last
      · exact zeroed.1.log .unregister zeroed.2
      · exact zeroed.1
    · exact serviced
  · exact h

theorem Accounted.run (h : Accounted faults s) {served : List (Fault α)}
    (sub : served ⊆ faults) : Accounted faults (s.run served) := by
  induction served generalizing s with
  | nil => exact h
  | cons fault served ih =>
      obtain ⟨first, later⟩ := List.cons_subset.mp sub
      exact ih (h.serve first) later

end Sources

section Residency

variable (base pageSize budgetPages : Nat) (weights : List Nat)

/-- The pager after any run of faults whose evictions do not fail for good: the resident pages fit
the budget and each can be evicted, every victim came first by weight and page, and what was
installed is accounted for. -/
theorem run_resident (budget : 2 ≤ budgetPages) (faults : List (Fault α))
    (calm : ∀ fault ∈ faults, Calm fault) :
    let s := (new base pageSize budgetPages weights : Pager α).run faults
    s.resident.keys.length ≤ budgetPages ∧
      (∀ page, page ∈ s.resident ↔ page ∈ residentOf s.log) ∧
      (∀ page ∈ s.resident, ∃ w, (w, page) ∈ s.evictQueue ∧ s.live (w, page)) ∧
      Throughout (VictimLeast weights (min (max (budgetPages / 2) 1) recentInstalls)) s.log ∧
      Throughout (Sourced faults pageSize) s.log := by
  intro s
  have start : Kept (new base pageSize budgetPages weights : Pager α) := kept_new budget weights
  obtain ⟨kept, frame, size⟩ := start.run (Nat.zero_le _) calm
  have none_ : Accounted faults (new base pageSize budgetPages weights : Pager α) := throughout_nil
  have accounted := none_.run (List.Subset.refl faults)
  have victims := kept.victims
  rw [frame.budget] at size
  rw [frame.weights, frame.protect] at victims
  rw [Accounted, frame.pageSize] at accounted
  refine ⟨size, kept.pages, fun page mem => ?_, victims, accounted⟩
  obtain ⟨found, queued⟩ := kept.entry mem
  exact ⟨_, queued, found⟩

/-- A fault on a page, everything but the evictions succeeding. -/
def easyFault (addr : Nat) (madvise : Except Nat Unit) : Fault Nat :=
  { addr := addr
    madvise := fun _ _ => madvise
    fill := fun offset _ => .ok offset
    copy := fun _ => .ok ()
    zeropage := fun _ => .ok () }

theorem run_resident_three :
    let s := (new 0 4096 2 [7, 3] : Pager Nat).run
      ([0, 4096, 8192].map fun addr => easyFault addr (.ok ()))
    s.resident.keys.length ≤ 2 ∧
      (∀ page, page ∈ s.resident ↔ page ∈ residentOf s.log) ∧
      (∀ page ∈ s.resident, ∃ w, (w, page) ∈ s.evictQueue ∧ s.live (w, page)) ∧
      Throughout (VictimLeast [7, 3] (min (max (2 / 2) 1) recentInstalls)) s.log ∧
      Throughout (Sourced ([0, 4096, 8192].map fun addr => easyFault addr (.ok ())) 4096) s.log :=
  run_resident 0 4096 2 [7, 3] (by decide) _ fun fault mem i => by
    obtain ⟨addr, _, rfl⟩ := List.mem_map.mp mem
    rfl

/-- A `MADV_DONTNEED` that fails for good (`EINVAL`): the victim's entry is lost, and the zero page
for the fault makes one page more than the budget. -/
theorem run_exceeds_budget :
    let s := (new 0 4096 2 [] : Pager Nat).run
      [easyFault 0 (.ok ()), easyFault 4096 (.ok ()), easyFault 8192 (.error 22)]
    s.resident.keys = [2, 1, 0] ∧ s.budgetPages < s.resident.keys.length ∧
      ∀ entry ∈ s.evictQueue, entry.2 ≠ 0 := by
  decide

end Residency

end Pager

end AetherGraph
