import Xmix.Worker.LogitsTracking

/-!
# Runs of the batch with its processors

Each call on the batch changes the value of a row as it changes the update that the processors will
see, so that after every step a processor has the parameters of the request in each row. The counter
of min-p is right as long as no positive `min_p` is rounded to zero where it is stored.
-/

namespace Xmix.Worker

open Function List Option

def Op.Prepares {ι : Type} : Op ι → Prop
  | .add q => q.samplingParams.Exact
  | .refresh => False
  | _ => True

variable {u : BatchUpdateBuilder}

namespace InputBatch

variable {ι : Type} [DecidableEq ι] {cfg : Config} {b b' : InputBatch ι} {st : Store ι}

section Rows

variable {α : Type} {z : α} {val : Kept α}

variable {i : Nat} {r : ι}

def rowValue (z : α) (val : Kept α) (b : InputBatch ι) (st : Store ι) (i : Nat) : α :=
  (b.reqIds[i]?.join.bind st.get?).elim z fun e => val e.samplingParams e.output

theorem rowValue_of_some {e : Entry} (hr : b.reqIds[i]? = some (some r)) (he : st.get? r = some e) :
    rowValue z val b st i = val e.samplingParams e.output := by
  simp [rowValue, hr, join_some, he, elim_some]

theorem rowValue_of_none (hi : ∀ r, b.reqIds[i]? ≠ some (some r)) : rowValue z val b st i = z := by
  unfold rowValue
  rcases hx : b.reqIds[i]? with - | - | r
  · rfl
  · rfl
  · exact absurd hx (hi r)

theorem rowValue_congr {st' : Store ι} {j : Nat} (hrow : b'.reqIds[j]?.join = b.reqIds[i]?.join)
    (hst : ∀ r, b.reqIds[i]? = some (some r) → (st'.get? r).map
      (fun e => (e.samplingParams, e.output)) = (st.get? r).map fun e => (e.samplingParams, e.output)) :
    rowValue z val b' st' j = rowValue z val b st i := by
  unfold rowValue
  rw [hrow]
  rcases hx : b.reqIds[i]? with - | - | r
  · rfl
  · rfl
  · have hsame := hst r hx
    simp only [join_some, bind_some]
    rcases he : st.get? r with - | e <;> rcases he' : st'.get? r with - | e'
    · rfl
    · simp [he, he'] at hsame
    · simp [he, he'] at hsame
    · simp only [he, he', map_some, some.injEq, Prod.mk.injEq] at hsame
      simp [elim_some, hsame]

abbrev Proper (cfg : Config) (b : InputBatch ι) : Prop := b.builder.Proper cfg.maxNumReqs b.numReqs

def Tracked (z : α) (val : Kept α) (f : Nat → α) (b : InputBatch ι) (st : Store ι) : Prop :=
  track z val b.builder f = rowValue z val b st

variable {f : Nat → α}

theorem tracked_remove (h : b.Core cfg st) (hg : b.Gaps) (hs : b.builder.isRemovedSorted = false)
    (ht : Tracked z val f b st) (hu : b.Proper cfg) (hb' : b.removeRequest r = some b') :
    Tracked z val f b' (st.pop r) ∧ b'.Proper cfg := by
  rcases hr : b.reqIdToIndex.get? r with - | i
  · have hsame : b.removeRequest r = some b := by simp [removeRequest, hr]
    cases hsame.symm.trans hb'
    rw [Dict.pop_of_none (h.get?_eq_none.1 hr)]
    exact ⟨ht, hu⟩
  obtain ⟨lids, lreqs, hsome, -⟩ := removeRequest_eq h hs hr
  cases hsome.symm.trans hb'
  have hri := (h.keys r i).1 hr
  have hi : i < cfg.maxNumReqs := Nat.lt_of_lt_of_le (h.lt_length hr) h.cap
  refine ⟨?_, hu.added, hu.exact, fun j hj => ?_, hu.moved, fun m hm => ?_⟩
  rotate_left
  · rcases mem_append.1 hj with hj | hj
    · exact hu.removed j hj
    · exact mem_singleton.1 hj ▸ hi
  · have hm' : m ∈ b.builder.moved := hm
    rw [hg.unmoved] at hm'
    cases hm'
  unfold Tracked at ht ⊢
  rw [track_remove z val f hg.unmoved, ht]
  funext j
  by_cases hj : j = i
  · subst hj
    rw [update_self, rowValue_of_none]
    intro r'
    simp [(List.getElem?_eq_some_iff.1 hri).1]
  · rw [update_of_ne hj]
    refine (rowValue_congr (by rw [getElem?_set_ne (Ne.symm hj)]) fun r' hr' => ?_).symm
    have hrr : r' ≠ r := by
      rintro rfl
      rw [(h.keys r' j).2 hr'] at hr
      exact hj (some.inj hr)
    rw [Dict.get?_pop_of_ne hrr]

theorem tracked_write {w : RowWrite} (ht : Tracked z val f b st)
    (hids : b'.reqIds = b.reqIds) (hu : b'.builder = b.builder) :
    Tracked z val f b' (st.exec cfg (.write r w)) := by
  unfold Tracked at ht ⊢
  rw [hu, ht]
  funext j
  refine (rowValue_congr (by rw [hids]) fun r' _ => ?_).symm
  simp only [Store.exec]
  split
  next e he =>
    rw [Dict.get?_set]
    split
    next hrr =>
      rw [hrr, he]
      cases w <;> rfl
    next => rfl
  next => rfl

theorem tracked_add {q : CachedRequestState ι} (h : b.Core cfg st)
    (hg : b.Gaps) (hp : st.Permits cfg (.add q)) (hq : q.samplingParams.Exact)
    (ht : Tracked z val f b st) (hu : b.Proper cfg) (hb' : b.addRequest cfg q = some b') :
    Tracked z val f b' (st.set q.reqId (Entry.ofRequest cfg q)) ∧ b'.Proper cfg := by
  obtain ⟨x, ha, heq⟩ := addRequest_eq h hg hp
  cases heq.symm.trans hb'
  obtain ⟨hreqIds, -, hbuilder⟩ := added_frame b q x
  have hlt : ∀ j, x.ids[j]? ≠ none → j < cfg.maxNumReqs := by
    intro j hj
    have := getElem?_eq_none_iff.not.1 hj
    have := ha.cap
    omega
  unfold Tracked at ht ⊢
  rw [Proper, hbuilder]
  refine ⟨?_, fun a ha' => ?_, fun a ha' => ?_, fun j hj => ?_, fun m hm => ?_, fun m hm => ?_⟩
  rotate_left
  · rw [ha.recorded] at ha'
    rcases mem_append.1 ha' with ha' | ha'
    · exact hu.added a ha'
    · obtain rfl := mem_singleton.1 ha'
      exact hlt _ (by rw [ha.idAt, if_pos rfl]; exact some_ne_none _)
  · rw [ha.recorded] at ha'
    rcases mem_append.1 ha' with ha' | ha'
    · exact hu.exact a ha'
    · obtain rfl := mem_singleton.1 ha'
      exact hq
  · exact hlt j (by rw [(ha.holes j).1 hj]; exact some_ne_none _)
  · rw [ha.unmoved] at hm
    cases hm
  · rw [ha.unmoved] at hm
    cases hm
  have hr : ∀ j, j ∈ x.builder.removed ↔ j ≠ x.index ∧ j ∈ b.builder.removed := by
    intro j
    rw [ha.holes, ha.idAt, hg.holes]
    split
    next hj => simp [hj]
    next hj => simp [hj]
  rw [track_add z val f hg.unmoved ha.unmoved ha.recorded hr, ht]
  funext j
  by_cases hj : j = x.index
  · subst hj
    rw [update_self]
    have hrow : (b.added q x).reqIds[x.index]? = some (some q.reqId) := by
      rw [hreqIds, ha.idAt, if_pos rfl]
    exact (rowValue_of_some (e := Entry.ofRequest cfg q) hrow (Dict.get?_set_self st q.reqId _)).symm
  · rw [update_of_ne hj]
    refine (rowValue_congr (by rw [hreqIds, ha.idAt, if_neg hj]) fun r' hr' => ?_).symm
    have hrr : r' ≠ q.reqId := by
      rintro rfl
      have := (h.dom q.reqId).1 (by rw [(h.keys _ _).2 hr']; rfl)
      rw [hp.1] at this
      cases this
    rw [Dict.get?_set_of_ne hrr]

theorem rowValue_movedDown {last empty : Nat} {o : Option Obj} {specs : List (List Nat)}
    (hlast : b.reqIds[last]? = some (some r)) (hempty : b.reqIds[empty]? = some none) :
    rowValue z val (b.movedDown r last empty o specs) st = shift z (rowValue z val b st)
      (last, empty, .unidirectional) := by
  have hzero : rowValue z val b st empty = z := rowValue_of_none fun r' hr' => by
    rw [hempty] at hr'
    cases hr'
  funext k
  refine (rowValue_congr (congrArg join (reqIds_movedDown hlast hempty k)) fun _ _ => rfl).trans ?_
  simp only [shift, update_apply, Equiv.swap_apply_def]
  split_ifs
  · exact hzero
  · rfl
  · rfl

theorem tracked_swap {j : Nat} (h : b.Core cfg st) (hpk : b.Packed) (hi : i < st.len) (hj : j < st.len)
    (ht : Tracked z val f b st) (hu : b.Proper cfg) (hb' : b.swapStates i j = some b') :
    Tracked z val f b' st ∧ b'.Proper cfg := by
  obtain ⟨r, hr⟩ := h.exists_of_packed hpk hi
  obtain ⟨r', hr'⟩ := h.exists_of_packed hpk hj
  obtain ⟨o, o', specs, ho, ho', hspecs, heq⟩ := swapStates_eq h hr hr'
  cases heq.symm.trans hb'
  have hil : i < cfg.maxNumReqs := Nat.lt_of_lt_of_le (List.getElem?_eq_some_iff.1 hr).1 h.cap
  have hjl : j < cfg.maxNumReqs := Nat.lt_of_lt_of_le (List.getElem?_eq_some_iff.1 hr').1 h.cap
  have hn : (b.swapped i j r r' o o' specs).numReqs = b.numReqs :=
    (swap_core h hr hr' ho ho' hspecs).size.trans h.size.symm
  refine ⟨?_, hu.added, hu.exact, hu.removed, fun m hm => ?_, fun m hm hd => ?_⟩
  · unfold Tracked at ht ⊢
    show track z val { b.builder with moved := b.builder.moved ++ [(i, j, .swap)] } f = _
    rw [track_moved, ht]
    funext k
    simp only [shift, swapCells_eq]
    exact (rowValue_congr (by rw [reqIds_swapped hr hr']) fun _ _ => rfl).symm
  · rcases mem_append.1 hm with hm | hm
    · exact hu.moved m hm
    · obtain rfl := mem_singleton.1 hm
      exact ⟨hil, hjl⟩
  · rcases mem_append.1 hm with hm | hm
    · rw [hn]
      exact hu.down m hm hd
    · obtain rfl := mem_singleton.1 hm
      cases hd

theorem rowValue_take {m : Nat} (hge : ∀ i, m ≤ i → i < b.reqIds.length → b.reqIds[i]? = some none)
    (hids : b'.reqIds = b.reqIds.take m) :
    rowValue z val b' st = rowValue z val b st := by
  funext i
  by_cases hi : i < m
  · exact rowValue_congr (by rw [hids, getElem?_take_of_lt hi]) fun _ _ => rfl
  · rw [rowValue_of_none, rowValue_of_none]
    · intro r hr
      have := hge i (by omega) (List.getElem?_eq_some_iff.1 hr).1
      rw [hr] at this
      cases this
    · intro r hr
      rw [hids, getElem?_take_eq_none (by omega)] at hr
      cases hr

theorem track_filled (z : α) (val : Kept α) (f : Nat → α)
    {ms : List MovedRequest} {holes : List Nat} (hms : Descends ms)
    (hmoved : u.moved = ms) (hremoved : ∀ i, i ∈ u.removed ↔ i ∈ (ms.map fun x => x.2.1) ++ holes) :
    track z val { u with removed := holes.reverse } f = track z val u f := by
  have hclear : ∀ g : Nat → α, clear z u.removed g = clear z (ms.map fun x => x.2.1) (clear z holes.reverse g) := by
    intro g
    funext i
    simp only [clear, hremoved, mem_append, mem_reverse]
    by_cases h₁ : i ∈ ms.map fun x => x.2.1 <;> by_cases h₂ : i ∈ holes <;> simp [h₁, h₂]
  simp only [track, hmoved]
  rw [hclear, foldl_shift_clear z hms _ fun _ ht => ht]

theorem tracked_condense (h : b.Core cfg st) (hg : b.Gaps) (ht : Tracked z val f b st) (hu : b.Proper cfg)
    (hb' : b.condense = some b') : Tracked z val f b' st ∧ b'.Proper cfg := by
  obtain ⟨hperm, -, -⟩ := ensureRemovedSorted_spec hg.sorted
  obtain ⟨hadded, hmoved⟩ := ensureRemovedSorted_frame b.builder
  have h₁ : { b with builder := b.builder.ensureRemovedSorted }.Core cfg st := { h with }
  have ht₁ : Tracked z val f { b with builder := b.builder.ensureRemovedSorted } st := by
    unfold Tracked at ht ⊢
    rw [track_removed_congr z val f (fun i => hperm.mem_iff) hadded hmoved]
    exact ht
  have hu₁ : b.builder.ensureRemovedSorted.Proper cfg.maxNumReqs b.numReqs :=
    ⟨hadded ▸ hu.added, hadded ▸ hu.exact, fun i hi => hu.removed i (hperm.mem_iff.1 hi),
      hmoved ▸ hu.moved, hmoved ▸ hu.down⟩
  rw [condense] at hb'
  simp only at hb'
  split at hb'
  · cases hb'
    exact ⟨ht₁, hu₁⟩
  split at hb'
  next hzero =>
    -- no request is left, and the rows of all are removed
    cases hb'
    refine ⟨?_, hu₁⟩
    unfold Tracked at ht₁ ⊢
    rw [ht₁]
    refine (rowValue_take (m := 0) (fun i _ hi => ?_) rfl).symm
    rcases hx : b.reqIds[i]? with - | - | r
    · exact absurd hi (by simpa using hx)
    · rfl
    · have hlen := Dict.len_pop_of_some ((h.keys r i).2 hx)
      have hzero' : b.reqIdToIndex.len = 0 := hzero
      omega
  next hzero =>
    obtain ⟨b₁, holes', m, ms, hloop, hc, hn, hp, hm, hlt, hge, -, hbuilder, hholes, hms, hsrc⟩ :=
      condenseLoop_spec (Tracked z val f · st) (fun b r last empty o specs _ hlast hempty _ hb => by
        simp only [Tracked] at hb ⊢
        rw [rowValue_movedDown hlast hempty, ← hb]
        exact track_moved z val b.builder f _) h₁ hg.filling ht₁
    have hloop' : condenseLoop b.builder.ensureRemovedSorted.removed.reverse
        (numReqs { b with builder := b.builder.ensureRemovedSorted } + b.builder.ensureRemovedSorted.removed.length)
        { b with builder := b.builder.ensureRemovedSorted } = some (b₁, holes') := hloop
    rw [hloop', bind_eq_bind, bind_some] at hb'
    cases hb'
    have hmoved₁ : b₁.builder.moved = ms := by
      rw [hbuilder]
      rw [hmoved, hg.unmoved, nil_append]
    have hremoved₁ : ∀ i, i ∈ b₁.builder.removed ↔ i ∈ (ms.map fun x => x.2.1) ++ holes' := by
      intro i
      rw [hbuilder, ← hholes, mem_reverse]
    have hcount : b.numReqs = m := hn.symm.trans (hc.count.trans (countP_isSome hm hlt hge))
    constructor
    · unfold Tracked at hp ⊢
      rw [track_filled z val f hms hmoved₁ hremoved₁, hp]
      exact (rowValue_take hge (by rw [← hcount]; rfl)).symm
    · have hrem : ∀ i ∈ (ms.map fun x => x.2.1) ++ holes', i < cfg.maxNumReqs := fun i hi =>
        hu₁.removed i (mem_reverse.1 (hholes ▸ hi))
      have hlen : b.numReqs + b.builder.ensureRemovedSorted.removed.length ≤ cfg.maxNumReqs := by
        rw [hperm.length_eq, hg.count]
        exact h.cap
      refine ⟨?_, ?_, fun i hi => hrem i (mem_append_right _ (mem_reverse.1 hi)), fun x hx => ?_, fun x hx _ => ?_⟩
      · rw [hbuilder]
        exact hu₁.added
      · rw [hbuilder]
        exact hu₁.exact
      · have hx' : x ∈ ms := hmoved₁ ▸ hx
        have := hsrc x hx'
        have := hms.down x hx'
        omega
      · have hx' : x ∈ ms := hmoved₁ ▸ hx
        refine ⟨(hms.down x hx').ne', ?_⟩
        show b₁.numReqs ≤ x.1
        have hn' : b₁.numReqs = b.numReqs := hn
        rw [hn', hcount]
        exact (hsrc x hx').1

theorem tracked_exec {op : Op ι} (h : b.Core cfg st) (hp : st.Permits cfg op) (hr : b.Ready op)
    (hop : op.Prepares) (hb' : b.exec cfg op = some b') (ht : Tracked z val f b st ∧ b.Proper cfg) :
    Tracked z val f b' (st.exec cfg op) ∧ b'.Proper cfg := by
  obtain ⟨ht, hu⟩ := ht
  cases op with
  | remove r => exact tracked_remove h hr.1 hr.2 ht hu hb'
  | write r w =>
    obtain ⟨i, e, row, -, -, -, -, -, heq⟩ := exec_write_eq h hp
    cases heq.symm.trans hb'
    exact ⟨tracked_write ht rfl rfl, hu⟩
  | add q => exact tracked_add h hr hp hop ht hu hb'
  | condense => exact tracked_condense h hr ht hu hb'
  | swap i j => exact tracked_swap h hr hp.1 hp.2 ht hu hb'
  | refresh => exact hop.elim

end Rows

end InputBatch

/-! ### Min-tokens -/

namespace MinTokensLogitsProcessor

variable {len : Obj → Nat}

def pending (len : Obj → Nat) (x : Option (Nat × Obj × List Nat)) : Option (Nat × Obj × List Nat) :=
  x.filter fun e => len e.2.1 < e.1

theorem pending_addRequest {len₀ : Obj → Nat} {q : SamplingParams} {o : Obj} (h : len₀ o ≤ len o) :
    pending len (addRequest len₀ q none o) = addRequest len q none o := by
  unfold addRequest pending
  split
  next hnone =>
    rw [if_pos (hnone.imp_right fun hle => hle.trans h)]
    rfl
  next hsome =>
    rw [not_or, not_le] at hsome
    by_cases hlen : len o < q.minTokens
    · rw [if_neg (by rw [not_or, not_le]; exact ⟨hsome.1, hlen⟩), filter_some, if_pos (decide_eq_true hlen)]
    · rw [if_pos (.inr (not_lt.1 hlen)), filter_some, if_neg (by simpa using hlen)]

theorem get?_foldl_pop (l : List Nat) (d : Dict Nat (Nat × Obj × List Nat)) :
    (l.foldl Dict.pop d).get? = clear none l d.get? := by
  induction l generalizing d with
  | nil => rfl
  | cons i l ih =>
    rw [foldl_cons, ih]
    funext j
    by_cases hj : j = i
    · subst hj
      simp [clear]
    · simp [clear, hj, Dict.get?_pop_of_ne hj]

theorem get?_updateState {p : MinTokensLogitsProcessor} {k : Nat}
    (hu : u.Apart) :
    (p.updateState len (u.getAndReset k)).minToks.get? =
      track none (addRequest len · none ·) u fun i => pending len (p.minToks.get? i) := by
  have hd : (processDictUpdates (fun q _ o => addRequest len q none o) p.minToks (u.getAndReset k)).1.get? =
      track none (addRequest len · none ·) u p.minToks.get? := get?_processDictUpdates hu p.minToks k
  have hstate : ∀ x : Dict Nat (Nat × Obj × List Nat) × Bool, ∀ toRemove : List Nat,
      (if x.2 || !toRemove.isEmpty then withTensors (toRemove.foldl Dict.pop x.1) else
        { p with minToks := toRemove.foldl Dict.pop x.1 }).minToks =
        toRemove.foldl Dict.pop x.1 := by
    intro x toRemove
    split <;> rfl
  unfold updateState
  rw [hstate, get?_foldl_pop]
  have hpending : ∀ d : Dict Nat (Nat × Obj × List Nat),
      clear none ((d.entries.filter fun e => e.2.1 ≤ len e.2.2.1).map Prod.fst) d.get? =
        fun i => pending len (d.get? i) := by
    intro d
    funext i
    unfold clear pending
    have hmem : i ∈ (d.entries.filter fun e => e.2.1 ≤ len e.2.2.1).map Prod.fst ↔
      ∃ e, d.get? i = some e ∧ e.1 ≤ len e.2.1 := by
      simp only [List.mem_map, List.mem_filter, decide_eq_true_eq, Dict.get?_eq_some]
      constructor
      · rintro ⟨⟨j, e⟩, ⟨he, hle⟩, rfl⟩
        exact ⟨e, he, hle⟩
      · rintro ⟨e, he, hle⟩
        exact ⟨(i, e), ⟨he, hle⟩, rfl⟩
    simp only [hmem]
    rcases d.get? i with - | e
    · simp
    · by_cases hlt : len e.2.1 < e.1
      · rw [if_neg (by rintro ⟨e', he', hle⟩; cases he'; omega), Option.filter_some, if_pos (decide_eq_true hlt)]
      · rw [if_pos ⟨e, rfl, by omega⟩, filter_some, if_neg (by simpa using hlt)]
  rw [hpending]
  have hd' : (processDictUpdates (addRequest len) p.minToks (u.getAndReset k)).1.get? =
    track none (addRequest len · none ·) u p.minToks.get? := hd
  rw [hd', track_map (pending len) rfl]
  congr 1
  funext q o
  exact pending_addRequest (le_refl _)

theorem updateState_withTensors {p : MinTokensLogitsProcessor}
    {u : Option BatchUpdate} (h : p = withTensors p.minToks) :
    p.updateState len u = withTensors (p.updateState len u).minToks := by
  unfold updateState
  simp only
  split
  · rfl
  next hflag =>
    simp only [Bool.or_eq_true, Bool.not_eq_true', not_or, Bool.not_eq_false, List.isEmpty_iff,
      Bool.not_eq_true] at hflag
    rw [hflag.2, List.foldl_nil, processDictUpdates_unchanged hflag.1]
    exact h

end MinTokensLogitsProcessor

theorem LogitBiasLogitsProcessor.get?_updateState {p : LogitBiasLogitsProcessor} {k : Nat}
    (hu : u.Apart) :
    (p.updateState (u.getAndReset k)).biases.get? = track none (fun q _ => truthy q.logitBias) u p.biases.get? := by
  rw [← get?_processDictUpdates hu p.biases k]
  unfold updateState
  simp only
  split <;> rfl

theorem LogitBiasLogitsProcessor.updateState_withTensors {p : LogitBiasLogitsProcessor}
    {u : Option BatchUpdate} (h : p = withTensors p.biases) :
    p.updateState u = withTensors (p.updateState u).biases := by
  unfold updateState
  simp only
  split
  · rfl
  next hflag =>
    rw [Bool.not_eq_true] at hflag
    rw [processDictUpdates_unchanged hflag]
    exact h

/-! ### Steps -/

namespace LogitsBatch

variable {ι : Type} [DecidableEq ι] {cfg : Config}

open SinglePrecision (toSingle)
open InputBatch (rowValue Tracked)

variable {len : Obj → Nat} {s : LogitsBatch ι}

structure Synced (cfg : Config) (len : Obj → Nat) (s : LogitsBatch ι) (st : Store ι) : Prop where
  core : s.batch.Core cfg st
  settled : s.batch.Settled
  counted : s.minP.Counted cfg.maxNumReqs
  sliced : s.minP.Sliced s.batch.numReqs
  minP : s.minP.minPCpu = rowValue 0 (fun q _ => toSingle q.minP) s.batch st
  logitBias : s.logitBias.biases.get? = rowValue none (fun q _ => truthy q.logitBias) s.batch st
  minTokens : s.minTokens.minToks.get? = rowValue none (MinTokensLogitsProcessor.addRequest len · none ·) s.batch st
  biasTensors : s.logitBias = .withTensors s.logitBias.biases
  minTensors : s.minTokens = .withTensors s.minTokens.minToks

section
variable {α : Type} {z : α} {val : Kept α} {b : InputBatch ι} {st : Store ι}

theorem tracked_settled {f : Nat → α} (hs : b.Settled) :
    Tracked z val f b st ↔ f = rowValue z val b st := by
  have hb : b.builder = ⟨[], false, [], []⟩ := by
    have h₁ := hs.removed
    have h₂ := hs.unsorted
    have h₃ := hs.moved
    have h₄ := hs.added
    rcases hu : b.builder with ⟨r, s, a, m⟩
    simp only [hu] at h₁ h₂ h₃ h₄
    rw [h₁, h₂, h₃, h₄]
  unfold InputBatch.Tracked
  rw [hb, track_nil]

theorem rowValue_beyond (h : b.Core cfg st) (hp : b.Packed)
    {i : Nat} (hi : b.numReqs ≤ i) : rowValue z val b st i = z := by
  refine InputBatch.rowValue_of_none fun r hr => ?_
  rw [h.numReqs_of_packed hp] at hi
  have := (List.getElem?_eq_some_iff.1 hr).1
  omega

end

variable {b : InputBatch ι} {st : Store ι}

theorem occupied_iff (h : b.Core cfg st) (hp : b.Packed) (i : Nat) :
    rowValue false (fun _ _ => true) b st i = true ↔ i < b.numReqs := by
  constructor
  · intro hi
    by_contra hge
    rw [rowValue_beyond h hp (not_lt.1 hge)] at hi
    cases hi
  · intro hi
    obtain ⟨r, hr⟩ := h.exists_of_packed hp (h.size ▸ hi)
    obtain ⟨e, he⟩ := isSome_iff_exists.1 ((h.dom r).1 (by rw [(h.keys r i).2 hr]; rfl))
    exact InputBatch.rowValue_of_some hr he

theorem pending_rowValue {len₀ : Obj → Nat} {b : InputBatch ι}
    {st : Store ι} (h : ∀ r e, st.get? r = some e → len₀ e.output ≤ len e.output) (i : Nat) :
    MinTokensLogitsProcessor.pending len (rowValue none (MinTokensLogitsProcessor.addRequest len₀ · none ·) b st i) =
      rowValue none (MinTokensLogitsProcessor.addRequest len · none ·) b st i := by
  unfold rowValue
  rcases hx : b.reqIds[i]?.join.bind st.get? with - | e
  · rfl
  · obtain ⟨r, -, he⟩ := bind_eq_some_iff.1 hx
    exact MinTokensLogitsProcessor.pending_addRequest (h r e he)

theorem prepare_tracked {x : Step ι} (hc : b.Core cfg st) (hs : b.Settled) (hp : st.PermitsAll cfg x.prepare)
    (hexact : ∀ q ∈ x.adds, q.samplingParams.Exact) :
    ∃ b', b.run cfg x.prepare = some b' ∧ b'.Core cfg (st.run cfg x.prepare) ∧ b'.Packed ∧ b'.Proper cfg ∧
      ∀ {α : Type} (z : α) (val : Kept α), Tracked z val (rowValue z val b st) b' (st.run cfg x.prepare) := by
  have hprepares : ∀ op ∈ x.prepare, op.Prepares := by
    intro op hop
    simp only [Step.prepare, List.mem_append, List.mem_map, List.mem_singleton] at hop
    rcases hop with (((⟨r, -, rfl⟩ | ⟨w, -, rfl⟩) | ⟨q, hq, rfl⟩) | rfl) | ⟨w, -, rfl⟩
    · trivial
    · trivial
    · exact hexact q hq
    · trivial
    · trivial
  have hproper : b.Proper cfg := by
    obtain ⟨-, hr, -, hm, ha⟩ := hs
    refine ⟨?_, ?_, ?_, ?_, ?_⟩ <;> simp [hr, hm, ha]
  have hone : ∀ {α : Type} (z : α) (val : Kept α), ∃ b', b.run cfg x.prepare = some b' ∧
    b'.Core cfg (st.run cfg x.prepare) ∧ b'.Packed ∧
      Tracked z val (rowValue z val b st) b' (st.run cfg x.prepare) ∧ b'.Proper cfg := fun z val =>
    (InputBatch.sound_prepare (C := fun _ op => op.Prepares) hc hs
      (InputBatch.meets_of_permitsAll hp fun _ op hop => hprepares op hop)).run
      (M := fun b' st' => Tracked z val (rowValue z val b st) b' st' ∧ b'.Proper cfg)
      (fun _ _ _ _ hc hp hr hop hb' ht => InputBatch.tracked_exec hc hp hr hop hb' ht)
        ⟨(tracked_settled hs).2 rfl, hproper⟩
  obtain ⟨b', hb', hc', hp', -, hu⟩ := hone () fun _ _ => ()
  refine ⟨b', hb', hc', hp', hu, fun z val => ?_⟩
  obtain ⟨b'', hb'', -, -, ht, -⟩ := hone z val
  cases hb'.symm.trans hb''
  exact ht

theorem results_tracked {x : Step ι} (hc : b.Core cfg st) (hs : b.Settled)
    (hp : st.PermitsAll cfg x.writes) :
    ∃ b', b.run cfg x.writes = some b' ∧ b'.Core cfg (st.run cfg x.writes) ∧
      b'.Settled ∧ b'.numReqs = b.numReqs ∧
      ∀ {α : Type} (z : α) (val : Kept α),
        rowValue z val b' (st.run cfg x.writes) = rowValue z val b st := by
  have hone : ∀ {α : Type} (z : α) (val : Kept α), ∃ b', b.run cfg x.writes = some b' ∧
      b'.Core cfg (st.run cfg x.writes) ∧ b'.Settled ∧
      Tracked z val (rowValue z val b st) b' (st.run cfg x.writes) ∧ b'.numReqs = b.numReqs := fun z val =>
    (InputBatch.sound_results (C := fun _ op => ∃ r w, op = .write r w) hc hs
      (InputBatch.meets_of_permitsAll hp fun _ op hop => by
        obtain ⟨w, -, rfl⟩ := mem_map.1 hop
        exact ⟨_, _, rfl⟩)).run (M := fun b' st' => Tracked z val (rowValue z val b st) b' st' ∧ b'.numReqs = b.numReqs)
      (by
        rintro b st _ b' hc hp - ⟨r, w, rfl⟩ hb' ⟨ht, hn⟩
        obtain ⟨i, e, row, -, -, -, -, -, heq⟩ := InputBatch.exec_write_eq hc hp
        cases heq.symm.trans hb'
        exact ⟨InputBatch.tracked_write ht rfl rfl, hn⟩)
      ⟨(tracked_settled hs).2 rfl, rfl⟩
  obtain ⟨b', hb', hc', hs', -, hn⟩ := hone () fun _ _ => ()
  refine ⟨b', hb', hc', hs', hn, fun z val => ?_⟩
  obtain ⟨b'', hb'', -, -, ht, -⟩ := hone z val
  cases hb'.symm.trans hb''
  exact ((tracked_settled hs').1 ht).symm

theorem step_synced {x : EngineStep ι} (h : s.Synced cfg len st)
    (hp : st.PermitsAll cfg x.ops) (hexact : ∀ q ∈ x.adds, q.samplingParams.Exact)
    (hgrow : ∀ r e, st.get? r = some e → len e.output ≤ x.outputLen e.output) :
    ∃ s', s.step cfg x = some s' ∧ s'.Synced cfg x.outputLen (st.run cfg x.ops) := by
  rw [Step.ops_eq] at hp ⊢
  obtain ⟨hp₁, hp₂⟩ := InputBatch.permitsAll_append.1 hp
  obtain ⟨b₁, r₁, c₁, p₁, u₁, ht⟩ := prepare_tracked h.core h.settled hp₁ hexact
  obtain ⟨b₂, r₂, c₂, p₂⟩ := InputBatch.refresh_spec c₁ p₁
  obtain ⟨hids, hindex⟩ := InputBatch.refreshMetadata_frame c₁ r₂
  have hnum : b₂.numReqs = b₁.numReqs := congrArg Dict.len hindex
  obtain ⟨b₃, r₃, c₃, p₃, hnum', hrest⟩ := results_tracked (x := x.toStep) c₂ p₂ hp₂.2
  have hrows : ∀ {α : Type} (z : α) (val : Kept α), track z val b₁.builder (rowValue z val s.batch st) =
      rowValue z val b₃ (Store.run cfg (st.run cfg x.prepare) x.writes) := fun z val => by
    rw [hrest z val, ht z val]
    exact funext fun i => (InputBatch.rowValue_congr (by rw [hids]) fun _ _ => rfl).symm
  -- the processors apply the update
  have hapart : b₁.builder.Apart := fun m hm hd => (u₁.down m hm hd).1
  obtain ⟨hcounted, hcpu⟩ := MinPLogitsProcessor.updateState_spec u₁ h.counted
  have hsliced : (s.minP.updateState (b₁.builder.getAndReset b₁.numReqs)).Sliced b₁.numReqs := by
    refine MinPLogitsProcessor.updateState_sliced u₁ h.counted h.sliced (fun hnil => ?_) fun i hi => ?_
    · -- without an update the same rows have a request
      have hocc : rowValue false (fun _ _ => true) s.batch st =
        rowValue false (fun _ _ => true) b₁ (st.run cfg x.prepare) := by
        rw [← ht]
        simp only [track, hnil.1, hnil.2.1, hnil.2.2, foldl_nil]
        rfl
      refine eq_of_forall_lt_iff fun i => ?_
      rw [← occupied_iff c₁ p₁, ← occupied_iff h.core h.settled.packed, hocc]
    · rw [h.minP, ht]
      exact rowValue_beyond c₁ p₁ hi
  refine ⟨⟨b₃, s.minP.updateState (b₁.builder.getAndReset b₁.numReqs),
    s.logitBias.updateState (b₁.builder.getAndReset b₁.numReqs),
    s.minTokens.updateState x.outputLen (b₁.builder.getAndReset b₁.numReqs)⟩, ?_, ?_⟩
  · simp [step, r₁, refreshMetadata, r₂, r₃]
  · rw [InputBatch.store_run_append]
    refine ⟨c₃, p₃, hcounted, ?_, ?_, ?_, ?_, LogitBiasLogitsProcessor.updateState_withTensors h.biasTensors,
      MinTokensLogitsProcessor.updateState_withTensors h.minTensors⟩
    · rw [hnum', hnum]
      exact hsliced
    · rw [hcpu, h.minP]
      exact hrows _ _
    · rw [LogitBiasLogitsProcessor.get?_updateState hapart, h.logitBias]
      exact hrows _ _
    · rw [MinTokensLogitsProcessor.get?_updateState hapart, h.minTokens]
      simp only [pending_rowValue hgrow]
      exact hrows _ _

def OutputsGrow (cfg : Config) : Store ι → (Obj → Nat) → List (EngineStep ι) → Prop
  | _, _, [] => True
  | st, len, x :: xs =>
    (∀ r e, st.get? r = some e → len e.output ≤ x.outputLen e.output) ∧
    OutputsGrow cfg (st.run cfg x.ops) x.outputLen xs

def lastLen (len : Obj → Nat) (steps : List (EngineStep ι)) : Obj → Nat := steps.foldl (fun _ x => x.outputLen) len

theorem run_synced {steps : List (EngineStep ι)} (h : s.Synced cfg len st)
    (hp : st.PermitsAll cfg (steps.flatMap fun x => x.ops)) (hexact : ∀ x ∈ steps, ∀ q ∈ x.adds, q.samplingParams.Exact)
    (hgrow : OutputsGrow cfg st len steps) :
    ∃ s', s.run cfg steps = some s' ∧ s'.Synced cfg (lastLen len steps)
      (st.run cfg (steps.flatMap fun x => x.ops)) := by
  induction steps generalizing len s st with
  | nil => exact ⟨s, rfl, h⟩
  | cons x xs ih =>
    rw [flatMap_cons] at hp ⊢
    obtain ⟨hp₁, hp₂⟩ := InputBatch.permitsAll_append.1 hp
    obtain ⟨s₁, hs₁, h₁⟩ := step_synced h hp₁ (hexact x mem_cons_self) hgrow.1
    obtain ⟨s', hs', h'⟩ := ih h₁ hp₂ (fun x' hx' => hexact x' (mem_cons_of_mem x hx')) hgrow.2
    refine ⟨s', ?_, ?_⟩
    · rw [run, foldlM_cons, hs₁]
      exact hs'
    · rw [InputBatch.store_run_append]
      exact h'

theorem synced_init (cfg : Config) (double : Bool) (len : Obj → Nat) :
    (init cfg double : LogitsBatch ι).Synced cfg len .empty where
  core := InputBatch.core_init cfg
  settled := InputBatch.settled_init cfg
  counted := ⟨by simp [init, MinPLogitsProcessor.init], fun _ _ => rfl⟩
  sliced := fun h => absurd rfl h
  minP := rfl
  logitBias := rfl
  minTokens := rfl
  biasTensors := rfl
  minTensors := rfl

/-- The processors have the parameters of the request in each row. -/
structure Follows (len : Obj → Nat) (s : LogitsBatch ι) (st : Store ι) : Prop where
  minP : ∀ r i e, s.batch.reqIdToIndex.get? r = some i → st.get? r = some e →
    s.minP.minPCpu i = toSingle e.samplingParams.minP
  minPCount : s.minP.minPCount = (range s.batch.numReqs).countP fun i => s.minP.minPCpu i ≠ 0
  minPSlice : s.minP.minPCount ≠ 0 → s.minP.size = s.batch.numReqs ∧
    ∀ i < s.batch.numReqs, s.minP.sliceAt i = s.minP.minPCpu i
  logitBias : ∀ r i e, s.batch.reqIdToIndex.get? r = some i → st.get? r = some e →
    s.logitBias.biases.get? i = truthy e.samplingParams.logitBias
  minTokens : ∀ r i e, s.batch.reqIdToIndex.get? r = some i → st.get? r = some e → s.minTokens.minToks.get? i =
    if 0 < e.samplingParams.minTokens ∧ len e.output < e.samplingParams.minTokens then
      some (e.samplingParams.minTokens, e.output, e.samplingParams.allStopTokenIds) else none
  tensors : s.logitBias = .withTensors s.logitBias.biases ∧ s.minTokens = .withTensors s.minTokens.minToks
  beyond : ∀ i, s.batch.numReqs ≤ i → s.minP.minPCpu i = 0 ∧ s.logitBias.biases.get? i = none ∧
    s.minTokens.minToks.get? i = none

theorem Synced.follows (h : s.Synced cfg len st) : s.Follows len st where
  minP r i e hr he := by
    rw [h.minP]
    exact InputBatch.rowValue_of_some ((h.core.keys r i).1 hr) he
  minPCount := by
    have hcap : s.batch.numReqs ≤ cfg.maxNumReqs := by
      rw [h.core.numReqs_of_packed h.settled.packed]
      exact h.core.cap
    rw [h.counted.count]
    obtain ⟨d, hd⟩ := Nat.exists_eq_add_of_le hcap
    rw [hd, range_add, countP_append, countP_map]
    have hrest : (List.range d).countP ((fun i => s.minP.minPCpu i ≠ 0 : Nat → Bool) ∘ (s.batch.numReqs + ·)) = 0 := by
      refine countP_eq_zero.2 fun i _ => ?_
      rw [h.minP]
      simp [rowValue_beyond h.core h.settled.packed (Nat.le_add_right _ i)]
    rw [hrest, Nat.add_zero]
  minPSlice := h.sliced
  logitBias r i e hr he := by
    rw [h.logitBias]
    exact InputBatch.rowValue_of_some ((h.core.keys r i).1 hr) he
  minTokens r i e hr he := by
    rw [h.minTokens, InputBatch.rowValue_of_some ((h.core.keys r i).1 hr) he]
    unfold MinTokensLogitsProcessor.addRequest
    split
    next hnone => rw [if_neg (by omega)]
    next hsome => rw [if_pos (by omega)]
  tensors := ⟨h.biasTensors, h.minTensors⟩
  beyond i hi := by
    rw [h.minP, h.logitBias, h.minTokens]
    exact ⟨rowValue_beyond h.core h.settled.packed hi, rowValue_beyond h.core h.settled.packed hi,
      rowValue_beyond h.core h.settled.packed hi⟩

/-- No run of steps raises, and after every run the processors track the batch, as long as every
`min_p` of an added request that is not zero is not rounded to zero. -/
theorem run_follows (cfg : Config) (double : Bool) (steps : List (EngineStep ι))
    (hp : Store.PermitsAll cfg (.empty : Store ι) (steps.flatMap fun x => x.ops))
    (hgrow : OutputsGrow cfg .empty (fun _ => 0) steps)
    (hexact : ∀ x ∈ steps, ∀ q ∈ x.adds, q.samplingParams.Exact) :
    ∃ s, (init cfg double : LogitsBatch ι).run cfg steps = some s ∧
      s.Follows (lastLen (fun _ => 0) steps) (Store.run cfg .empty (steps.flatMap fun x => x.ops)) := by
  obtain ⟨s, hs, h⟩ := run_synced (synced_init cfg double fun _ => 0) hp hexact hgrow
  exact ⟨s, hs, h.follows⟩

/-! ### Small runs -/

def minPRequest (r : Nat) (minP : Rat) : CachedRequestState Nat :=
  { tinyRequest r none with samplingParams := ⟨1, 1, 0, 0, 0, 1, none, none, minP, some [(r, 1)], 1, [3]⟩ }

theorem minPRequest_fits (r : Nat) (minP : Rat) : (minPRequest r minP).Fits tinyConfig :=
  ⟨(tinyRequest_fits r none).tokens, (tinyRequest_fits r none).blocks⟩

def leavingSteps : List (EngineStep Nat) :=
  [⟨⟨[], [], [minPRequest 1 (1 / 2), minPRequest 2 (1 / 4)], [(0, 1)], []⟩, fun _ => 0⟩,
    ⟨⟨[2], [], [], [], []⟩, fun _ => 1⟩]

theorem leavingSteps_follow : ∃ s, (init tinyConfig true : LogitsBatch Nat).run tinyConfig leavingSteps = some s ∧
    s.Follows (lastLen (fun _ => 0) leavingSteps)
      (Store.run tinyConfig .empty (leavingSteps.flatMap fun x => x.ops)) := by
  refine run_follows tinyConfig true leavingSteps ?_ ?_ ?_
  · exact ⟨⟨rfl, by decide, minPRequest_fits 1 _⟩, ⟨rfl, by decide, minPRequest_fits 2 _⟩, trivial,
      ⟨by decide, by decide⟩, trivial,
      trivial, trivial, trivial, trivial⟩
  · exact ⟨fun _ _ h => (by cases h), fun _ _ _ => Nat.zero_le _, trivial⟩
  · intro x hx q hq
    rcases mem_cons.1 hx with rfl | hx
    · rcases mem_cons.1 hq with rfl | hq
      · exact fun h => absurd h (SinglePrecision.toSingle_ne_zero (by decide +kernel))
      · obtain rfl := mem_singleton.1 hq
        exact fun h => absurd h (SinglePrecision.toSingle_ne_zero (by decide +kernel))
    · obtain rfl := mem_singleton.1 hx
      cases hq

def underflowSteps : List (EngineStep Nat) :=
  [⟨⟨[], [], [minPRequest 1 (1 / 2)], [], []⟩, fun _ => 0⟩,
    ⟨⟨[1], [], [minPRequest 2 (1 / 10 ^ 46)], [], []⟩, fun _ => 0⟩]

/-- The row is zero and the counter is not. -/
theorem underflowSteps_count : Store.PermitsAll tinyConfig (.empty : Store Nat)
      (underflowSteps.flatMap fun x => x.ops) ∧
    OutputsGrow tinyConfig .empty (fun _ => 0) underflowSteps ∧
    ∃ s, (init tinyConfig true : LogitsBatch Nat).run tinyConfig underflowSteps = some s ∧
      s.minP.minPCount = 1 ∧ s.minP.minPCpu 0 = 0 ∧
      ¬ s.Follows (lastLen (fun _ => 0) underflowSteps)
        (Store.run tinyConfig .empty (underflowSteps.flatMap fun x => x.ops)) := by
  refine ⟨?_, ?_, ?_⟩
  · exact ⟨⟨rfl, by decide, minPRequest_fits 1 _⟩, trivial, trivial, trivial,
      ⟨rfl, by decide, minPRequest_fits 2 _⟩, trivial, trivial, trivial⟩
  · exact ⟨fun _ _ h => (by cases h), fun _ _ _ => Nat.le_refl _, trivial⟩
  · obtain ⟨s, hs⟩ := isSome_iff_exists.1
      (show ((init tinyConfig true : LogitsBatch Nat).run tinyConfig underflowSteps).isSome by decide +kernel)
    have hfacts : ((init tinyConfig true : LogitsBatch Nat).run tinyConfig underflowSteps).any (fun s =>
        s.minP.minPCount = 1 ∧ s.minP.minPCpu 0 = 0 ∧ s.batch.numReqs = 1) = true := by decide +kernel
    rw [hs, any_some, decide_eq_true_eq] at hfacts
    obtain ⟨hcount, hzero, hnum⟩ := hfacts
    refine ⟨s, hs, hcount, hzero, fun h => ?_⟩
    have hright := h.minPCount
    rw [hcount, hnum] at hright
    simp [range_succ, hzero] at hright

end LogitsBatch

end Xmix.Worker
