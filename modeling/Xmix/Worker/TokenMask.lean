import Xmix.Worker.RowStore

/-!
# The mask of allowed token ids

The mask of the batch has a row for each request and is used for sampling as soon as one request has
allowed ids. A row must exclude everything but the allowed ids of its request, and nothing if the
request has none. Two things go wrong: `swap_states` exchanges two rows of a tensor by a tuple
assignment of views, and `condense` leaves the mask of a request in the row it moves the request
from, where `add_request` does not clear it.
-/

namespace Xmix.Worker

open Function Option Dict

def Entry.mask (e : Entry) (v : Nat) : Bool :=
  match e.allowed with
  | some ids => !ids.contains v
  | none => false

namespace InputBatch

variable {ι : Type} [DecidableEq ι] {cfg : Config} {b : InputBatch ι} {st : Store ι}

variable {b' : InputBatch ι} {i : Nat} {r : ι} {specs : List (List Nat)}

/-- In each row the mask excludes what its request does not allow. -/
def MaskRight (b : InputBatch ι) (st : Store ι) : Prop :=
  match b.samplingMask with
  | none => ∀ r e, st.get? r = some e → e.allowed = none
  | some n => ∀ r i e, b.reqIdToIndex.get? r = some i → st.get? r = some e → i < n ∧ b.deviceMask i = e.mask

structure HostRight (b : InputBatch ι) (st : Store ι) : Prop where
  rows : b.maskAllocated = true → ∀ r i e, b.reqIdToIndex.get? r = some i → st.get? r = some e →
    (b.rows i).allowedTokenIdsMask = e.mask
  unallocated : b.maskAllocated = false → ∀ r e, st.get? r = some e → e.allowed = none
  users : ∀ r, r ∈ b.hasAllowedTokenIds ↔ ∃ e, st.get? r = some e ∧ e.allowed ≠ none

variable (b)

def nextRow : Nat := b.builder.popRemoved.1.getD b.numReqs

/-- Swapped rows have equal masks, and a request that allows all tokens gets a row with a clear one.
-/
def KeepsMask : Op ι → Prop
  | .swap i j => b.maskAllocated = true → (b.rows i).allowedTokenIdsMask = (b.rows j).allowedTokenIdsMask
  | .add q => b.maskAllocated = true → truthy q.samplingParams.allowedTokenIds = none →
    (b.rows b.nextRow).allowedTokenIdsMask = fun _ => false
  | .remove _ | .write _ _ | .condense | .refresh => True

def Pending : Prop := b.builder.removed ≠ [] ∨ b.builder.moved ≠ [] ∨ b.builder.added ≠ []

variable {b}

theorem host_init (cfg : Config) : (init cfg : InputBatch ι).HostRight .empty where
  rows := by simp [init]
  unallocated := by simp
  users := by simp [init]

theorem host_remove (h : b.Core cfg st) (hs : b.builder.isRemovedSorted = false) (hm : b.HostRight st)
    (hb' : b.removeRequest r = some b') : b'.HostRight (st.pop r) ∧ (¬ b'.Pending → b' = b ∧ st.pop r = st) := by
  rcases hr : b.reqIdToIndex.get? r with - | i
  · obtain rfl : b = b' := by simpa [removeRequest, hr] using hb'
    rw [pop_of_none (h.get?_eq_none.1 hr)]
    exact ⟨hm, fun _ => ⟨rfl, rfl⟩⟩
  obtain ⟨lids, lreqs, heq, -⟩ := removeRequest_eq h hs hr
  rw [heq] at hb'
  cases hb'
  refine ⟨⟨?_, ?_, ?_⟩, fun hp => absurd (.inl (by simp)) hp⟩
  · intro hal r' j e hr' he
    have hrr : r' ≠ r := by
      rintro rfl
      simp at he
    rw [get?_pop_of_ne hrr] at hr' he
    have hj : j ≠ i := fun hj => hrr (h.inj (hj ▸ hr') hr)
    simp only [update_of_ne hj]
    exact hm.rows hal r' j e hr' he
  · intro hal r' e he
    rw [get?_pop] at he
    split at he
    · cases he
    · exact hm.unallocated hal r' e he
  · intro r'
    have := hm.users r'
    simp only [List.mem_filter, decide_eq_true_eq, this, get?_pop]
    by_cases hrr : r' = r
    · simp [hrr]
    · simp [hrr]

variable (b i)

theorem mask_addSampling (q : CachedRequestState ι) (j : Nat) :
    ((b.addSampling i q).rows j).allowedTokenIdsMask =
      match truthy q.samplingParams.allowedTokenIds with
      | none => (b.rows j).allowedTokenIdsMask
      | some ids =>
        if j = i then maskOf ids else if b.maskAllocated then (b.rows j).allowedTokenIdsMask else fun _ => false := by
  rw [addSampling]
  rcases truthy q.samplingParams.allowedTokenIds with - | ids
  · rfl
  · simp only [writeMask]
    by_cases hj : j = i
    · rw [hj, update_self, if_pos rfl]
    · rw [update_of_ne hj, if_neg hj]
      cases b.maskAllocated <;> rfl

theorem allocated_addSampling (q : CachedRequestState ι) :
    (b.addSampling i q).maskAllocated = (b.maskAllocated || (truthy q.samplingParams.allowedTokenIds).isSome) := by
  rw [addSampling]
  rcases truthy q.samplingParams.allowedTokenIds with - | ids <;> simp

theorem users_addSampling (q : CachedRequestState ι) (r : ι) :
    r ∈ (b.addSampling i q).hasAllowedTokenIds ↔
      r ∈ b.hasAllowedTokenIds ∨ (r = q.reqId ∧ (truthy q.samplingParams.allowedTokenIds).isSome) := by
  rw [addSampling]
  rcases truthy q.samplingParams.allowedTokenIds with - | ids
  · simp
  · simp [List.mem_insert_iff, or_comm]

variable {b i}

omit [DecidableEq ι] in
theorem mask_ofRequest (cfg : Config) (q : CachedRequestState ι) :
    (Entry.ofRequest cfg q).mask = match truthy q.samplingParams.allowedTokenIds with
      | none => fun _ => false
      | some ids => maskOf ids := by
  funext v
  simp only [Entry.mask, Entry.ofRequest]
  rcases truthy q.samplingParams.allowedTokenIds with - | ids <;> rfl

theorem host_add {q : CachedRequestState ι} {x : Slot ι} (hnew : st.get? q.reqId = none) (ha : Added cfg b q x)
    (hk : b.KeepsMask (.add q)) (hm : b.HostRight st) : (b.added q x).HostRight (st.exec cfg (.add q)) := by
  obtain ⟨-, fidx, -⟩ := addSampling_frame (b.addedTo q x) x.index q
  have hmask := mask_addSampling (b.addedTo q x) x.index q
  have hal := allocated_addSampling (b.addedTo q x) x.index q
  have husers := users_addSampling (b.addedTo q x) x.index q
  obtain ⟨lids, lreqs, hlora⟩ := addLora_frame ((b.addedTo q x).addSampling x.index q) q
  rw [added, hlora]
  generalize (b.addedTo q x).addSampling x.index q = b' at *
  simp only [addedTo] at fidx hmask hal husers
  have hget : ∀ r j, (b.reqIdToIndex.set q.reqId x.index).get? r = some j → r ≠ q.reqId → j ≠ x.index ∧
    b.reqIdToIndex.get? r = some j := by
    intro r j hr hrr
    rw [get?_set_of_ne hrr] at hr
    exact ⟨fun hj => ha.free r (hj ▸ hr), hr⟩
  simp only [Store.exec]
  constructor
  case rows =>
    intro hal' r j e hr he
    simp only [hal] at hal'
    simp only [fidx] at hr
    simp only [hmask]
    by_cases hrr : r = q.reqId
    · subst hrr
      obtain rfl : x.index = j := by simpa using hr
      obtain rfl : Entry.ofRequest cfg q = e := by simpa using he
      rw [mask_ofRequest]
      rcases hq : truthy q.samplingParams.allowedTokenIds with - | xs
      · have hclear := hk (by simpa [hq] using hal') hq
        rw [nextRow, ha.next] at hclear
        simp [ha.mask, hclear]
      · simp
    · obtain ⟨hj, hr⟩ := hget r j hr hrr
      rw [get?_set_of_ne hrr] at he
      simp only [update_of_ne hj, if_neg hj]
      by_cases hb : b.maskAllocated = true
      · have := hm.rows hb r j e hr he
        rcases truthy q.samplingParams.allowedTokenIds with - | xs <;> simpa [hb] using this
      · have hb' : b.maskAllocated = false := by simpa using hb
        have hnone := hm.unallocated hb' r e he
        have hemask : e.mask = fun _ => false := by
          funext v
          rw [Entry.mask, hnone]
        rcases hq : truthy q.samplingParams.allowedTokenIds with - | xs
        · simp [hq, hb'] at hal'
        · simp [hb', hemask]
  case unallocated =>
    intro hal' r e he
    simp only [hal, Bool.or_eq_false_iff] at hal'
    rw [get?_set] at he
    split at he
    · cases he
      simpa [Entry.ofRequest] using hal'.2
    · exact hm.unallocated hal'.1 r e he
  case users =>
    intro r
    simp only [husers, hm.users, get?_set]
    by_cases hrr : r = q.reqId
    · simp [hrr, hnew, Entry.ofRequest, isSome_iff_ne_none]
    · simp [hrr]

theorem host_movedDown {last empty : Nat} {o : Option Obj} (h : b.Core cfg st)
    (hlast : b.reqIds[last]? = some (some r)) (hempty : b.reqIds[empty]? = some none) (hm : b.HostRight st) :
    (b.movedDown r last empty o specs).HostRight st := by
  have hr : b.reqIdToIndex.get? r = some last := (h.keys r last).2 hlast
  have hfree : ∀ r', b.reqIdToIndex.get? r' ≠ some empty := h.not_free_iff.2 (.inr hempty)
  have hne : empty ≠ last := fun he => hfree r (he ▸ hr)
  refine ⟨?_, hm.unallocated, hm.users⟩
  intro hal r' j e hr' he
  have hal : b.maskAllocated = true := hal
  simp only [movedDown] at hr' ⊢
  by_cases hrr : r' = r
  · subst hrr
    obtain rfl : empty = j := by simpa using hr'
    rw [update_of_ne hne, update_self]
    exact (if_pos hal).trans (hm.rows hal r' last e hr he)
  · rw [get?_set_of_ne hrr] at hr'
    have hj : j ≠ last := fun hj => hrr (h.inj (hj ▸ hr') hr)
    have hj' : j ≠ empty := fun hj => hfree r' (hj ▸ hr')
    rw [update_of_ne hj, update_of_ne hj']
    exact hm.rows hal r' j e hr' he

theorem swapViews_of_eq {α : Type} {a : Nat → α} {j : Nat} (h : a i = a j) (k : Nat) : swapViews a i j k = a k := by
  simp only [swapViews]
  by_cases hj : k = j
  · by_cases hi : i = j <;> simp [hj]
  · rw [update_of_ne hj]
    by_cases hi : k = i
    · rw [hi, update_self, h]
    · rw [update_of_ne hi]

theorem host_swapped {j : Nat} {r' : ι} {o o' : Option Obj}
    (h : b.Core cfg st) (hi : b.reqIds[i]? = some (some r))
    (hj : b.reqIds[j]? = some (some r')) (hk : b.KeepsMask (.swap i j)) (hm : b.HostRight st) :
    (b.swapped i j r r' o o' specs).HostRight st := by
  have hr : b.reqIdToIndex.get? r = some i := (h.keys r i).2 hi
  have hr' : b.reqIdToIndex.get? r' = some j := (h.keys r' j).2 hj
  refine ⟨?_, hm.unallocated, hm.users⟩
  intro hal x k e hx he
  have hal : b.maskAllocated = true := hal
  have heq : (b.rows i).allowedTokenIdsMask = (b.rows j).allowedTokenIdsMask := hk hal
  have hview := swapViews_of_eq (a := fun k => (b.rows k).allowedTokenIdsMask) heq k
  simp only [swapped, swapRows, hal, if_true] at hx ⊢
  rw [hview]
  rw [get?_set, get?_set] at hx
  split at hx
  next hxr =>
    cases hx
    rw [heq]
    exact hm.rows hal x j e (hxr ▸ hr') he
  next =>
    split at hx
    next hxr =>
      cases hx
      rw [← heq]
      exact hm.rows hal x i e (hxr ▸ hr) he
    next => exact hm.rows hal x k e hx he

/-! ### What a call leaves to be refreshed -/

/-- The mask is right unless a refresh is still to come. -/
def Fresh (b : InputBatch ι) (st : Store ι) : Prop := ¬ b.Pending → b.MaskRight st

theorem MaskRight.congr {st' : Store ι} (h : b.MaskRight st) (hs : b'.samplingMask = b.samplingMask)
    (hd : b'.deviceMask = b.deviceMask) (hi : b'.reqIdToIndex = b.reqIdToIndex)
    (hst : ∀ r e', st'.get? r = some e' → ∃ e, st.get? r = some e ∧ e'.allowed = e.allowed) : b'.MaskRight st' := by
  simp only [MaskRight, hs, hd, hi] at h ⊢
  rcases hn : b.samplingMask with - | n <;> rw [hn] at h
  · intro r e' he'
    obtain ⟨e, he, hal⟩ := hst r e' he'
    exact hal.trans (h r e he)
  · intro r i e' hr he'
    obtain ⟨e, he, hal⟩ := hst r e' he'
    obtain ⟨h₁, h₂⟩ := h r i e hr he
    refine ⟨h₁, h₂.trans ?_⟩
    funext v
    simp [Entry.mask, hal]

theorem condenseLoop_moved {holes : List Nat} {n : Nat} {b : InputBatch ι} {holes' : List Nat}
    (h : condenseLoop holes n b = some (b', holes')) (hne : holes ≠ [] ∨ b.builder.moved ≠ []) :
    holes' ≠ [] ∨ b'.builder.moved ≠ [] := by
  induction holes generalizing b n with
  | nil =>
    obtain ⟨rfl, rfl⟩ : b = b' ∧ [] = holes' := by simpa [condenseLoop] using h
    exact hne
  | cons empty holes ih =>
    rw [condenseLoop] at h
    split at h
    · obtain ⟨rfl, rfl⟩ : b = b' ∧ empty :: holes = holes' := by simpa using h
      exact .inl (by simp)
    · obtain ⟨b₁, hb₁, hrest⟩ := bind_eq_some_iff.1 h
      refine ih hrest (.inr ?_)
      simp only [moveRequest, bind_eq_bind, bind_eq_some_iff, some.injEq] at hb₁
      obtain ⟨_, _, _, _, _, _, _, _, _, _, _, _, _, _, _, _, _, _, rfl⟩ := hb₁
      simp

theorem fresh_condense (h : b.condense = some b') (hf : b.Fresh st) (hg : b.Gaps) : b'.Fresh st := by
  obtain ⟨hperm, -, -⟩ := ensureRemovedSorted_spec hg.sorted
  obtain ⟨hadded, hmoved⟩ := ensureRemovedSorted_frame b.builder
  rw [condense] at h
  split at h
  next hnil =>
    cases h
    intro hp
    refine MaskRight.congr (hf fun hp' => hp ?_) rfl rfl rfl fun r e he => ⟨e, he, rfl⟩
    simp only [Pending, hmoved, hadded] at hp' ⊢
    rcases hp' with hp' | hp'
    · rw [hnil] at hperm
      exact absurd (List.nil_perm.1 hperm) hp'
    · exact .inr hp'
  next hne =>
    split at h
    · cases h
      exact fun hp => absurd (.inl hne) hp
    · obtain ⟨⟨b₁, holes⟩, hloop, hrest⟩ := bind_eq_some_iff.1 h
      cases hrest
      intro hp
      refine absurd ?_ hp
      have hne' : b.builder.ensureRemovedSorted.removed.reverse ≠ [] := by simpa using hne
      rcases condenseLoop_moved hloop (.inl hne') with hh | hh
      · exact .inl (by simpa using hh)
      · exact .inr (.inl hh)

theorem fresh_refresh (h : b.Core cfg st) (hp : b.Packed) (hm : b.HostRight st) (hf : b.Fresh st)
    (hb' : b.refreshMetadata = some b') : b'.MaskRight st ∧ b'.HostRight st := by
  rcases refreshMetadata_eq h with ⟨hr, hmv, had, heq⟩ | ⟨hnil, heq⟩ | ⟨hne, heq⟩
  · rw [heq] at hb'
    cases hb'
    refine ⟨MaskRight.congr (hf ?_) rfl rfl rfl fun r e he => ⟨e, he, rfl⟩, ⟨hm.rows, hm.unallocated, hm.users⟩⟩
    simp [Pending, hr, hmv, had]
  · rw [heq] at hb'
    cases hb'
    refine ⟨fun r e he => ?_, ⟨hm.rows, hm.unallocated, hm.users⟩⟩
    by_contra hal
    have := (hm.users r).2 ⟨e, he, hal⟩
    simp [hnil] at this
  · rw [heq] at hb'
    cases hb'
    refine ⟨fun r i e hr he => ?_, ⟨hm.rows, hm.unallocated, hm.users⟩⟩
    have hlt : i < b.numReqs := by
      rw [h.numReqs_of_packed hp]
      exact h.lt_length hr
    exact ⟨hlt, (if_pos hlt).trans (hm.rows (h.allowed hne) r i e hr he)⟩

theorem mask_exec {op : Op ι} (h : b.Core cfg st) (hp : st.Permits cfg op) (hr : b.Ready op)
    (hk : b.KeepsMask op) (hb' : b.exec cfg op = some b') (hm : b.HostRight st ∧ b.Fresh st) :
    b'.HostRight (st.exec cfg op) ∧ b'.Fresh (st.exec cfg op) := by
  obtain ⟨hm, hf⟩ := hm
  cases op with
  | remove r =>
    obtain ⟨h₁, h₂⟩ := host_remove h hr.2 hm hb'
    refine ⟨h₁, fun hpend => ?_⟩
    obtain ⟨rfl, hst⟩ := h₂ hpend
    simp only [Store.exec, hst]
    exact hf hpend
  | write r w =>
    obtain ⟨i, e, row, hi, he, -, hmask, -, heq⟩ := exec_write_eq h hp
    rw [heq] at hb'
    cases hb'
    have hst : st.exec cfg (.write r w) = st.set r (e.write cfg w) := by simp [Store.exec, he]
    have hsame : ∀ r' e', (st.set r (e.write cfg w)).get? r' = some e' →
        ∃ e₀, st.get? r' = some e₀ ∧ e'.allowed = e₀.allowed := by
      intro r' e' he'
      by_cases hrr : r' = r
      · subst hrr
        obtain rfl : e.write cfg w = e' := by simpa using he'
        exact ⟨e, he, (Entry.write_frame cfg e w).2.2⟩
      · rw [get?_set_of_ne hrr] at he'
        exact ⟨e', he', rfl⟩
    rw [hst]
    refine ⟨⟨?_, ?_, ?_⟩, fun hpend => MaskRight.congr (hf hpend) rfl rfl rfl hsame⟩
    · intro hal r' j e' hr' he'
      obtain ⟨e₀, he₀, hal₀⟩ := hsame r' e' he'
      have hrows := hm.rows hal r' j e₀ hr' he₀
      have hemask : e'.mask = e₀.mask := by
        funext v
        simp only [Entry.mask, hal₀]
      rw [hemask, ← hrows]
      by_cases hj : j = i
      · simp only [hj, update_self, hmask]
      · simp only [update_of_ne hj]
    · intro hal r' e' he'
      obtain ⟨e₀, he₀, hal₀⟩ := hsame r' e' he'
      exact hal₀.trans (hm.unallocated hal r' e₀ he₀)
    · intro r'
      rw [hm.users]
      constructor
      · rintro ⟨e₀, he₀, hal₀⟩
        by_cases hrr : r' = r
        · subst hrr
          obtain rfl : e = e₀ := by simpa [he] using he₀
          exact ⟨_, get?_set_self _ _ _, by rwa [(Entry.write_frame cfg e w).2.2]⟩
        · exact ⟨e₀, by rwa [get?_set_of_ne hrr], hal₀⟩
      · rintro ⟨e', he', hal'⟩
        obtain ⟨e₀, he₀, hal₀⟩ := hsame r' e' he'
        exact ⟨e₀, he₀, hal₀ ▸ hal'⟩
  | add q =>
    obtain ⟨x, ha, heq⟩ := addRequest_eq h hr hp
    cases heq.symm.trans hb'
    refine ⟨host_add hp.1 ha hk hm, fun hpend => absurd (.inr (.inr ?_)) hpend⟩
    rw [(added_frame b q x).2.2]
    exact ha.recorded ▸ List.append_ne_nil_of_right_ne_nil _ (List.cons_ne_nil _ _)
  | condense =>
    obtain ⟨b₁, hb₁, -, -, hm₁⟩ := condense_spec (fun b => b.HostRight st)
      (fun b r last empty o specs hc hl he _ hm => host_movedDown hc hl he hm)
      (fun b u ids outs specs hm => ⟨hm.rows, hm.unallocated, hm.users⟩) h hr hm
    cases hb₁.symm.trans hb'
    exact ⟨hm₁, fresh_condense hb' hf hr⟩
  | swap i j =>
    obtain ⟨r, hi⟩ := h.exists_of_packed hr hp.1
    obtain ⟨r', hj⟩ := h.exists_of_packed hr hp.2
    obtain ⟨o, o', specs, -, -, -, heq⟩ := swapStates_eq h hi hj
    cases heq.symm.trans hb'
    exact ⟨host_swapped h hi hj hk hm, fun hpend => absurd (.inr (.inl (by simp [swapped]))) hpend⟩
  | refresh =>
    obtain ⟨h₁, h₂⟩ := fresh_refresh h hr hm hf hb'
    exact ⟨h₂, fun _ => h₁⟩

/-- After every run of steps whose calls keep the mask, the mask used for sampling is right for every request. -/
theorem run_maskRight (cfg : Config) (steps : List (Step ι))
    (h : Meets cfg KeepsMask (init cfg : InputBatch ι) .empty (steps.flatMap Step.ops)) :
    ∃ b, (init cfg : InputBatch ι).run cfg (steps.flatMap Step.ops) = some b ∧
      b.MaskRight (Store.run cfg .empty (steps.flatMap Step.ops)) := by
  have hfresh : (init cfg : InputBatch ι).Fresh .empty := fun _ r e he => by simp at he
  obtain ⟨b, hb, -, hs, -, hf⟩ :=
    (sound_steps (core_init cfg) (settled_init cfg) h).run (M := fun b st => b.HostRight st ∧ b.Fresh st)
    (fun b st op b' hc hp hr hk hb' hm => mask_exec hc hp hr hk hb' hm) ⟨host_init cfg, hfresh⟩
  refine ⟨b, hb, hf ?_⟩
  simp [Pending, hs.removed, hs.moved, hs.added]

end InputBatch

/-- Row 2 moves down when request 1 leaves, and rows with one mask are swapped before and after. -/
def mixedSteps : List (Step Nat) :=
  [⟨[], [], [tinyRequest 1 none, tinyRequest 2 (some [1]), tinyRequest 3 (some [1])], [(1, 2)], []⟩,
    ⟨[1], [(2, .computed 1)], [], [(0, 1)], []⟩, ⟨[], [], [tinyRequest 4 (some [2])], [], []⟩]

theorem mixedSteps_maskRight : ∃ b, (InputBatch.init tinyConfig : InputBatch Nat).run
      tinyConfig (mixedSteps.flatMap Step.ops) = some b ∧
    b.MaskRight (Store.run tinyConfig .empty (mixedSteps.flatMap Step.ops)) := by
  refine InputBatch.run_maskRight tinyConfig mixedSteps ?_
  refine ⟨⟨rfl, by decide, tinyRequest_fits 1 _⟩, fun h => absurd h (by decide), fun b hb => ?_⟩
  cases hb
  refine ⟨⟨rfl, by decide, tinyRequest_fits 2 _⟩, fun h => absurd h (by decide), fun b hb => ?_⟩
  cases hb
  refine ⟨⟨rfl, by decide, tinyRequest_fits 3 _⟩, fun _ h => absurd h (by decide),
    fun b hb => ⟨trivial, trivial, fun b₁ hb₁ => ?_⟩⟩
  cases hb
  cases hb₁
  refine ⟨⟨by decide, by decide⟩, fun _ => rfl,
    fun b hb => ⟨trivial, trivial, fun b₁ hb₁ => ⟨trivial, trivial, fun b₂ hb₂ => ?_⟩⟩⟩
  cases hb
  cases hb₁
  cases hb₂
  refine ⟨⟨_, rfl, trivial⟩, trivial, fun b hb => ⟨trivial, trivial, fun b₁ hb₁ => ?_⟩⟩
  cases hb
  cases hb₁
  refine ⟨⟨by decide, by decide⟩, fun _ => rfl, fun b hb => ⟨trivial, trivial, fun b₁ hb₁ => ?_⟩⟩
  exact ⟨⟨rfl, by decide, tinyRequest_fits 4 _⟩, fun _ h => absurd h (by decide), fun _ _ =>
    ⟨trivial, trivial, fun _ _ => ⟨trivial, trivial, fun _ _ => trivial⟩⟩⟩

def swapSteps : List (Step Nat) := [⟨[], [], [tinyRequest 1 (some [1]), tinyRequest 2 (some [2])], [(0, 1)], []⟩]

def staleSteps : List (Step Nat) :=
  [⟨[], [], [tinyRequest 1 none, tinyRequest 2 none, tinyRequest 3 (some [1])], [], []⟩, ⟨[1], [], [], [], []⟩,
    ⟨[], [], [tinyRequest 4 none], [], []⟩]

theorem not_maskRight {ops : List (Op Nat)} {r i v n : Nat} {e : Entry}
    (hrun : ((InputBatch.init tinyConfig : InputBatch Nat).run tinyConfig ops).map
      (fun b => (b.samplingMask, b.reqIdToIndex.get? r, b.deviceMask i v)) = some (some n, some i, true))
    (hst : (Store.run tinyConfig .empty ops).get? r = some e) (he : e.mask v = false) :
    ∃ b, (InputBatch.init tinyConfig : InputBatch Nat).run tinyConfig ops = some b ∧
      ¬ b.MaskRight (Store.run tinyConfig .empty ops) := by
  obtain ⟨b, hb, hval⟩ := map_eq_some_iff.1 hrun
  obtain ⟨hmask, hidx, hdev⟩ : b.samplingMask = some n ∧ b.reqIdToIndex.get? r = some i ∧ b.deviceMask i v = true := by
    simpa using hval
  refine ⟨b, hb, fun h => ?_⟩
  rw [InputBatch.MaskRight, hmask] at h
  obtain ⟨-, hrow⟩ := h r i e hidx hst
  rw [hrow, he] at hdev
  cases hdev

/-- Both ways to a wrong mask: after the swap the row of request 1 excludes token 1, which it alone
allows, and the row of request 4 excludes token 0 although it allows everything. -/
theorem masks_wrong :
    (Store.PermitsAll tinyConfig (.empty : Store Nat) (swapSteps.flatMap Step.ops) ∧
      ∃ b, (InputBatch.init tinyConfig : InputBatch Nat).run tinyConfig (swapSteps.flatMap Step.ops) = some b ∧
        ¬ b.MaskRight (Store.run tinyConfig .empty (swapSteps.flatMap Step.ops))) ∧
    (Store.PermitsAll tinyConfig (.empty : Store Nat) (staleSteps.flatMap Step.ops) ∧
      ∃ b, (InputBatch.init tinyConfig : InputBatch Nat).run tinyConfig (staleSteps.flatMap Step.ops) = some b ∧
        ¬ b.MaskRight (Store.run tinyConfig .empty (staleSteps.flatMap Step.ops))) := by
  refine ⟨⟨⟨⟨rfl, by decide, tinyRequest_fits 1 _⟩, ⟨rfl, by decide, tinyRequest_fits 2 _⟩, trivial,
    ⟨by decide, by decide⟩,
      trivial, trivial⟩, not_maskRight (r := 1) (i := 1) (v := 1) (n := 2) ?_ rfl rfl⟩,
    ⟨⟨⟨rfl, by decide, tinyRequest_fits 1 _⟩, ⟨rfl, by decide, tinyRequest_fits 2 _⟩,
      ⟨rfl, by decide, tinyRequest_fits 3 _⟩,
      trivial, trivial, trivial, trivial, trivial, ⟨rfl, by decide, tinyRequest_fits 4 _⟩, trivial, trivial, trivial⟩,
      not_maskRight (r := 4) (i := 2) (v := 0) (n := 3) ?_ rfl rfl⟩⟩
  · decide
  · decide

end Xmix.Worker
