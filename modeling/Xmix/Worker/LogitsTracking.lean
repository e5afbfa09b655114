import Xmix.Worker.LogitsProcessors
import Xmix.Worker.RowStore

/-!
# Processors follow the batch

What a row-indexed store of parameters becomes when an update is applied to it, and that this is
what the batch has become: each call on the batch adds to the update, and the value the update leads
to is at every moment that of the request in the row. A hole that a request is moved into is no
longer listed as removed; the move overwrites what is left there.
-/

namespace Xmix.Worker

open Function List Option Dict

/-! ### Applying an update -/

/-- What a processor keeps of a request: a value of its parameters and its list of output tokens. -/
abbrev Kept (α : Type) := SamplingParams → Obj → α

section Track

variable {α β : Type} (z : α) (val : Kept α) (f : Nat → α)

def assign (a : AddedRequest) : Nat → α :=
  update f a.1 (val a.2.1 a.2.2.2)

def clear (removed : List Nat) (f : Nat → α) (i : Nat) : α := if i ∈ removed then z else f i

def shift (m : MovedRequest) : Nat → α :=
  match m.2.2 with
  | .swap => InputBatch.swapCells f m.1 m.2.1
  | .unidirectional => update (update f m.2.1 (f m.1)) m.1 z

def track (u : BatchUpdateBuilder) (f : Nat → α) : Nat → α :=
  u.moved.foldl (shift z) (clear z u.removed (u.added.foldl (assign val) f))

theorem track_nil (sorted : Bool) : track z val ⟨[], sorted, [], []⟩ f = f := by
  funext i
  simp [track, clear]

theorem track_moved (u : BatchUpdateBuilder) (f : Nat → α) (m : MovedRequest) :
    track z val { u with moved := u.moved ++ [m] } f = shift z (track z val u f) m := by
  simp [track, foldl_append, foldl_cons, foldl_nil]

theorem track_removed_congr {u u' : BatchUpdateBuilder} (f : Nat → α) (hr : ∀ i, i ∈ u'.removed ↔ i ∈ u.removed)
    (ha : u'.added = u.added) (hm : u'.moved = u.moved) : track z val u' f = track z val u f := by
  have hclear : ∀ g : Nat → α, clear z u'.removed g = clear z u.removed g := fun g => by
    funext i
    simp [clear, hr]
  simp [track, ha, hm, hclear]

theorem track_remove {u : BatchUpdateBuilder} (f : Nat → α) (hm : u.moved = []) (i : Nat) :
    track z val { u with removed := u.removed ++ [i] } f = update (track z val u f) i z := by
  funext j
  by_cases hj : j = i
  · subst hj
    simp [track, hm, clear]
  · simp [track, hm, clear, hj]

theorem track_add {u u' : BatchUpdateBuilder} (f : Nat → α) (hm : u.moved = []) (hm' : u'.moved = []) {i : Nat}
    {p : SamplingParams} {prompt : Option (List Nat)} {o : Obj} (ha : u'.added = u.added ++ [(i, p, prompt, o)])
    (hr : ∀ j, j ∈ u'.removed ↔ j ≠ i ∧ j ∈ u.removed) : track z val u' f = update (track z val u f) i (val p o) := by
  funext j
  by_cases hj : j = i
  · subst hj
    simp [track, hm', clear, ha, hr, assign]
  · simp [track, hm, hm', clear, ha, hr, assign, hj]

theorem shift_map (φ : α → β) {z : α} {z' : β} (hz : φ z = z') (f : Nat → α) (m : MovedRequest) :
    (fun i => φ (shift z f m i)) = shift z' (fun i => φ (f i)) m := by
  funext i
  rcases m with ⟨a, b, - | -⟩
  · simp only [shift, update_apply, apply_ite φ, hz]
  · simp only [shift, InputBatch.swapCells, update_apply, apply_ite φ]

theorem track_map (φ : α → β) {z : α} {z' : β} (hz : φ z = z') (val : Kept α) (u : BatchUpdateBuilder) (f : Nat → α) :
    (fun i => φ (track z val u f i)) = track z' (fun p o => φ (val p o)) u fun i => φ (f i) := by
  have hadd : ∀ (l : List AddedRequest) (f : Nat → α),
      (fun i => φ (l.foldl (assign val) f i)) = l.foldl (assign fun p o => φ (val p o)) fun i => φ (f i) := by
    intro l
    induction l with
    | nil => exact fun f => rfl
    | cons a l ih =>
      intro f
      rw [foldl_cons, foldl_cons, ih]
      congr 1
      funext i
      simp only [assign, update_apply, apply_ite φ]
  have hmove : ∀ (l : List MovedRequest) (f : Nat → α),
      (fun i => φ (l.foldl (shift z) f i)) = l.foldl (shift z') fun i => φ (f i) := by
    intro l
    induction l with
    | nil => exact fun f => rfl
    | cons m l ih =>
      intro f
      rw [foldl_cons, foldl_cons, ih, shift_map φ hz]
  rw [track, hmove, track, ← hadd]
  congr 1
  funext i
  simp only [clear, apply_ite φ, hz]

theorem relocate_const (removed : List Nat) (moved : List MovedRequest) :
    moved.foldl (shift z) (clear z removed fun _ => z) = fun _ => z := by
  have hclear : (clear z removed fun _ => z) = fun _ => z := by
    funext i
    exact ite_self z
  rw [hclear]
  induction moved with
  | nil => rfl
  | cons m moved ih =>
    have hshift : shift z (fun _ => z) m = fun _ => z := by
      funext i
      rcases m with ⟨a, b, - | -⟩ <;> simp [shift, InputBatch.swapCells, update_apply]
    rw [foldl_cons, hshift, ih]

theorem foldl_shift_update {ms : List MovedRequest} (h : InputBatch.Descends ms) (f : Nat → α) {t : Nat}
    (ht : t ∈ ms.map fun m => m.2.1) (x : α) : ms.foldl (shift z) (update f t x) = ms.foldl (shift z) f := by
  induction ms generalizing f with
  | nil => cases ht
  | cons m ms ih =>
    obtain ⟨a, b, d⟩ := m
    have hd : d = .unidirectional := h.direction (a, b, d) mem_cons_self
    have hba : b < a := h.down (a, b, d) mem_cons_self
    have hpair := pairwise_cons.1 h.apart
    subst hd
    rw [foldl_cons, foldl_cons]
    rcases mem_cons.1 ht with heq | ht
    · have hsame : shift z (update f b x) (a, b, .unidirectional) = shift z f (a, b, .unidirectional) := by
        simp only [shift, update_idem, update_of_ne hba.ne']
      rw [heq, hsame]
    · obtain ⟨m', hm', rfl⟩ := mem_map.1 ht
      have hlt := hpair.1 m' hm'
      have hdown := h.down m' (mem_cons_of_mem _ hm')
      have hcomm : shift z (update f m'.2.1 x) (a, b, .unidirectional) =
          update (shift z f (a, b, .unidirectional)) m'.2.1 x := by
        simp only at hlt
        simp only [shift]
        rw [update_of_ne (by omega : a ≠ m'.2.1), update_comm (by omega : m'.2.1 ≠ b),
          update_comm (by omega : m'.2.1 ≠ a)]
      rw [hcomm]
      exact ih ⟨fun m hm => h.direction m (mem_cons_of_mem _ hm),
        fun m hm => h.down m (mem_cons_of_mem _ hm), hpair.2⟩ _ ht

theorem foldl_shift_clear {ms : List MovedRequest} (h : InputBatch.Descends ms) (f : Nat → α) {ts : List Nat}
    (hts : ∀ t ∈ ts, t ∈ ms.map fun m => m.2.1) : ms.foldl (shift z) (clear z ts f) = ms.foldl (shift z) f := by
  induction ts generalizing f with
  | nil => rfl
  | cons t ts ih =>
    have hcons : clear z (t :: ts) f = clear z ts (update f t z) := by
      funext i
      by_cases hi : i = t
      · subst hi
        simp [clear]
      · simp [clear, hi]
    rw [hcons, ih _ fun t' ht' => hts t' (mem_cons_of_mem t ht'), foldl_shift_update z h f (hts t mem_cons_self)]

end Track

/-! ### Sparse processors -/

section Entries

variable {τ β : Type} {val : Kept (Option τ)}

theorem get?_addEntry (x : Dict Nat τ × Bool) (a : AddedRequest) :
    (addEntry (fun p _ o => val p o) x a).1.get? = assign val x.1.get? a := by
  funext i
  rw [addEntry, assign, update_apply]
  split
  next state h => rw [get?_set, h]
  next h =>
    split
    · rw [get?_pop, h]
    next hnone =>
      split
      next hi =>
        subst hi
        rw [h]
        exact not_isSome_iff_eq_none.1 hnone
      next => rfl

theorem get?_foldl_addEntry (l : List AddedRequest) (x : Dict Nat τ × Bool) :
    (l.foldl (addEntry fun p _ o => val p o) x).1.get? = l.foldl (assign val) x.1.get? := by
  induction l generalizing x with
  | nil => rfl
  | cons a l ih => rw [foldl_cons, foldl_cons, ih, get?_addEntry]

theorem get?_foldl_removeEntry (l : List Nat) (x : Dict Nat τ × Bool) :
    (l.foldl removeEntry x).1.get? = clear none l x.1.get? := by
  induction l generalizing x with
  | nil => rfl
  | cons i l ih =>
    rw [foldl_cons, ih]
    funext j
    by_cases hj : j = i
    · subst hj
      simp [clear, removeEntry]
    · simp [clear, removeEntry, hj, get?_pop_of_ne hj]

theorem get?_moveEntry (x : Dict Nat τ × Bool) {m : MovedRequest} (hm : m.2.2 = .unidirectional → m.1 ≠ m.2.1) :
    (moveEntry x m).1.get? = shift none x.1.get? m := by
  obtain ⟨a, b, d⟩ := m
  funext i
  by_cases hab : a = b
  · -- a row swapped with itself
    subst hab
    have hd : d = .swap := by
      cases d with
      | unidirectional => exact absurd rfl (hm rfl)
      | swap => rfl
    subst hd
    simp only [moveEntry, shift, get?_pop_self, InputBatch.swapCells, update_eq_self]
    cases ha : x.1.get? a with
    | none =>
      simp only [get?_pop]
      split
      next hi => rw [hi, ha]
      next => rfl
    | some entry =>
      simp only [get?_set, get?_pop]
      split
      next hi => rw [hi, ha]
      next => rfl
  · have hba : b ≠ a := fun h => hab h.symm
    simp only [moveEntry, get?_pop_of_ne hba]
    rcases ha : x.1.get? a with - | entry <;> rcases hb : x.1.get? b with - | entry' <;> cases d <;>
      simp only [shift, InputBatch.swapCells, update_apply, get?_set, get?_pop, ha, hb, if_true, reduceCtorEq,
        if_false] <;> grind

theorem get?_foldl_moveEntry {l : List MovedRequest}
    (hl : ∀ m ∈ l, m.2.2 = .unidirectional → m.1 ≠ m.2.1) (x : Dict Nat τ × Bool) :
    (l.foldl moveEntry x).1.get? = l.foldl (shift none) x.1.get? := by
  induction l generalizing x with
  | nil => rfl
  | cons m l ih =>
    rw [foldl_cons, foldl_cons, ih fun m' hm' => hl m' (mem_cons_of_mem m hm'), get?_moveEntry x (hl m mem_cons_self)]

def BatchUpdateBuilder.Apart (u : BatchUpdateBuilder) : Prop := ∀ m ∈ u.moved, m.2.2 = .unidirectional → m.1 ≠ m.2.1

theorem get?_processDictUpdates {u : BatchUpdateBuilder} (hu : u.Apart) (d : Dict Nat τ) (size : Nat) :
    (processDictUpdates (fun p _ o => val p o) d (u.getAndReset size)).1.get? = track none val u d.get? := by
  unfold BatchUpdateBuilder.getAndReset
  split
  next hnil =>
    obtain ⟨hr, hm, ha⟩ := hnil
    simp only [processDictUpdates, track, hr, hm, ha, foldl_nil]
    rfl
  next =>
    simp only [processDictUpdates]
    split
    next hzero =>
      rw [track, ← get?_foldl_addEntry _ (d, false)]
      have hnone : (foldl (addEntry fun p _ o => val p o) (d, false) u.added).1.get? = fun _ => none :=
        funext fun i => get?_of_len_eq_zero hzero i
      rw [hnone, relocate_const]
    next => rw [get?_foldl_moveEntry hu, get?_foldl_removeEntry, get?_foldl_addEntry, track]

theorem foldl_unchanged {f : Dict Nat τ × Bool → β → Dict Nat τ × Bool}
    (hf : ∀ x a, (f x a).2 = false → f x a = x) {l : List β}
    {x : Dict Nat τ × Bool} (h : (l.foldl f x).2 = false) : l.foldl f x = x := by
  induction l generalizing x with
  | nil => rfl
  | cons a l ih =>
    rw [foldl_cons] at h ⊢
    have hrest := ih h
    rw [hrest] at h ⊢
    exact hf x a h

theorem processDictUpdates_unchanged {newState : SamplingParams → Option (List Nat) → Obj → Option τ}
    {d : Dict Nat τ} {u : Option BatchUpdate} (h : (processDictUpdates newState d u).2 = false) :
    (processDictUpdates newState d u).1 = d := by
  have hadd : ∀ x a, (addEntry newState x a).2 = false → addEntry newState x a = x := by
    intro x a hx
    unfold addEntry at hx ⊢
    split at hx
    · cases hx
    · split at hx
      · cases hx
      next hnone => simp only [if_neg hnone]
  have hremove : ∀ (x : Dict Nat τ × Bool) i, (removeEntry x i).2 = false → removeEntry x i = x := by
    intro x i hx
    simp only [removeEntry, Bool.or_eq_false_iff, isSome_eq_false_iff, isNone_iff_eq_none] at hx ⊢
    rw [pop_of_none hx.2, hx.2, isSome_none, Bool.or_false]
  have hmove : ∀ (x : Dict Nat τ × Bool) m, (moveEntry x m).2 = false → moveEntry x m = x := by
    intro x m hx
    simp only [moveEntry, Bool.or_eq_false_iff, isSome_eq_false_iff, isNone_iff_eq_none] at hx ⊢
    obtain ⟨⟨hx₂, ha⟩, hb⟩ := hx
    rw [pop_of_none ha] at hb ⊢
    rw [pop_of_none hb, ha, hb]
    exact Prod.ext rfl (by simp)
  cases u with
  | none => rfl
  | some u =>
    simp only [processDictUpdates] at h ⊢
    split
    next hzero =>
      rw [if_pos hzero] at h
      rw [foldl_unchanged hadd h]
    next hzero =>
      rw [if_neg hzero] at h
      have h₁ := foldl_unchanged hmove h
      rw [h₁] at h ⊢
      have h₂ := foldl_unchanged hremove h
      rw [h₂] at h ⊢
      rw [foldl_unchanged hadd h]

end Entries

/-! ### Min-p -/

namespace MinPLogitsProcessor

open SinglePrecision (toSingle)

structure Counted (n : Nat) (p : MinPLogitsProcessor) : Prop where
  count : p.minPCount = (range n).countP fun i => p.minPCpu i ≠ 0
  beyond : ∀ i, n ≤ i → p.minPCpu i = 0

theorem countP_update {n i : Nat} (hi : i < n) (f : Nat → Rat) (x : Rat) :
    ((range n).countP fun j => update f i x j ≠ 0) + (if f i ≠ 0 then 1 else 0) =
      ((range n).countP fun j => f j ≠ 0) + if x ≠ 0 then 1 else 0 := by
  have hset : (range n).map (update f i x) = ((range n).map f).set i x := ext_getElem (by simp) fun j _ _ => by
    simp [update_apply, getElem_set, eq_comm]
  have h :=
    InputBatch.countP_set_add (p := fun y => decide (y ≠ 0)) (show ((range n).map f)[i]? = some (f i) by simp [hi]) x
  rw [← hset, countP_map, countP_map] at h
  simpa [comp_def] using h

theorem Counted.update {n i : Nat} {p p' : MinPLogitsProcessor}
    {x : Rat} (h : p.Counted n) (hi : i < n) (hcpu : p'.minPCpu = Function.update p.minPCpu i x)
    (hcount : p'.minPCount + (if p.minPCpu i ≠ 0 then 1 else 0) =
      p.minPCount + if x ≠ 0 then 1 else 0) : p'.Counted n where
  count := by
    have := countP_update hi p.minPCpu x
    rw [hcpu]
    rw [h.count] at hcount
    have hcast : ∀ q : Prop, [Decidable q] → ((if q then 1 else 0 : Nat) : Int) = if q then 1 else 0 :=
      fun q _ => by split <;> rfl
    have hint : (((List.range n).countP fun j => Function.update p.minPCpu i x j ≠ 0 : Nat) : Int) +
      (if p.minPCpu i ≠ 0 then 1 else 0) =
        ((List.range n).countP fun j => p.minPCpu j ≠ 0 : Nat) + if x ≠ 0 then 1 else 0 := by
      rw [← hcast, ← hcast]
      exact_mod_cast this
    omega
  beyond j hj := by
    rw [hcpu, update_of_ne (by omega : j ≠ i)]
    exact h.beyond j hj

variable {p : MinPLogitsProcessor}

theorem Counted.write {n i : Nat} (h : p.Counted n) (hi : i < n) (x : Rat) :
    Counted n { p with
      minPCpu := Function.update p.minPCpu i x
      minPCount := p.minPCount + (if x ≠ 0 then 1 else 0) - if p.minPCpu i ≠ 0 then 1 else 0 } :=
  h.update hi rfl (by simp only; omega)

theorem Counted.eq_zero {n : Nat} (h : p.Counted n) (hz : p.minPCount = 0) : p.minPCpu = fun _ => 0 := by
  funext i
  by_cases hi : i < n
  · have hcount := h.count
    rw [hz] at hcount
    have hzero := countP_eq_zero.1 (Int.natCast_eq_zero.1 hcount.symm) i (mem_range.2 hi)
    simpa using hzero
  · exact h.beyond i (by omega)

structure Part (n k : Nat) (x x' : Bool × MinPLogitsProcessor) : Prop where
  counted : x'.2.Counted n
  double : x'.2.useDoubleTensor = x.2.useDoubleTensor
  device : x'.2.minPDevice = x.2.minPDevice
  size : x'.2.size = x.2.size
  quiet : x'.1 = false → x.1 = false ∧ ∀ i < k, x'.2.minPCpu i = x.2.minPCpu i

theorem Part.refl {n k : Nat} {x : Bool × MinPLogitsProcessor} (h : x.2.Counted n) : Part n k x x :=
      ⟨h, rfl, rfl, rfl, fun hx => ⟨hx, fun _ _ => rfl⟩⟩

theorem Part.trans {n k : Nat} {x y w : Bool × MinPLogitsProcessor}
    (h : Part n k x y) (h' : Part n k y w) : Part n k x w :=
  ⟨h'.counted, h'.double.trans h.double, h'.device.trans h.device, h'.size.trans h.size,
    fun hw => ⟨(h.quiet (h'.quiet hw).1).1,
      fun i hi => ((h'.quiet hw).2 i hi).trans ((h.quiet (h'.quiet hw).1).2 i hi)⟩⟩

section

variable {n k : Nat} {x : Bool × MinPLogitsProcessor}

theorem add_part (h : x.2.Counted n) {a : AddedRequest} (ha : a.1 < n)
    (hrep : toSingle a.2.1.minP = 0 → a.2.1.minP = 0) :
    Part n k x (add x a) ∧ (add x a).2.minPCpu = assign (fun p _ => toSingle p.minP) x.2.minPCpu a := by
  simp only [add]
  split
  next heq =>
    refine ⟨.refl h, ?_⟩
    rw [assign, ← heq, update_eq_self]
  next hne =>
    have hzero : toSingle a.2.1.minP = 0 ↔ a.2.1.minP = 0 := ⟨hrep, fun hz => by rw [hz, SinglePrecision.toSingle_zero]⟩
    refine ⟨⟨h.update ha rfl ?_, rfl, rfl, rfl, fun hx => by cases hx⟩, rfl⟩
    split_ifs <;> simp_all

theorem foldl_add_part {l : List AddedRequest} (h : x.2.Counted n) (hl : ∀ a ∈ l, a.1 < n)
    (hrep : ∀ a ∈ l, toSingle a.2.1.minP = 0 → a.2.1.minP = 0) :
    Part n k x (l.foldl add x) ∧ (l.foldl add x).2.minPCpu =
      l.foldl (assign fun p _ => toSingle p.minP) x.2.minPCpu := by
  induction l generalizing x with
  | nil => exact ⟨.refl h, rfl⟩
  | cons a l ih =>
    obtain ⟨h₁, e₁⟩ := add_part (k := k) h (hl a mem_cons_self) (hrep a mem_cons_self)
    obtain ⟨h₂, e₂⟩ :=
      ih h₁.counted (fun a' ha' => hl a' (mem_cons_of_mem a ha')) fun a' ha' => hrep a' (mem_cons_of_mem a ha')
    exact ⟨h₁.trans h₂, by rw [foldl_cons, foldl_cons, e₂, e₁]⟩

theorem remove_part (h : p.Counted n) {i : Nat} (hi : i < n) :
    Part n k (true, p) (true, p.remove i) ∧ (p.remove i).minPCpu = update p.minPCpu i 0 := by
  unfold remove
  split
  next hne =>
    refine ⟨⟨h.update hi rfl ?_, rfl, rfl, rfl, fun hx => by cases hx⟩, rfl⟩
    simp [hne]
  next hz =>
    rw [not_not] at hz
    refine ⟨.refl h, ?_⟩
    rw [← hz, update_eq_self]

theorem foldl_remove_part {l : List Nat} (h : p.Counted n) (hl : ∀ i ∈ l, i < n) :
    Part n k (true, p) (true, l.foldl remove p) ∧ (l.foldl remove p).minPCpu = clear 0 l p.minPCpu := by
  induction l generalizing p with
  | nil => exact ⟨.refl h, rfl⟩
  | cons i l ih =>
    obtain ⟨h₁, e₁⟩ := remove_part (k := k) h (hl i mem_cons_self)
    obtain ⟨h₂, e₂⟩ := ih h₁.counted fun j hj => hl j (mem_cons_of_mem i hj)
    refine ⟨h₁.trans h₂, ?_⟩
    rw [foldl_cons, e₂, e₁]
    funext j
    by_cases hj : j = i
    · subst hj
      simp [clear]
    · simp [clear, hj]

theorem move_down (h : x.2.Counted n) {a b : Nat} (ha : a < n) (hb : b < n) (hab : a ≠ b) (hk : k ≤ a) :
    Part n k x (move x (a, b, .unidirectional)) ∧
      (move x (a, b, .unidirectional)).2.minPCpu = shift 0 x.2.minPCpu (a, b, .unidirectional) := by
  have hcpu : (move x (a, b, .unidirectional)).2.minPCpu = shift 0 x.2.minPCpu (a, b, .unidirectional) := by
    have hwrite : x.2.minPCpu a = x.2.minPCpu b → update x.2.minPCpu b (x.2.minPCpu a) = x.2.minPCpu := fun heq => by
      rw [heq, update_eq_self]
    have hleave : x.2.minPCpu a = 0 → ∀ f : Nat → Rat, f a = x.2.minPCpu a → update f a 0 = f := fun hz f hf => by
      rw [← hz, ← hf, update_eq_self]
    simp only [move, shift, reduceCtorEq, if_false, if_true]
    by_cases heq : x.2.minPCpu a = x.2.minPCpu b <;> by_cases hz : x.2.minPCpu a = 0
    · rw [if_neg (not_not.2 hz), if_neg (not_not.2 heq), hwrite heq, hleave hz _ rfl]
    · rw [if_pos hz, if_neg (not_not.2 heq), hwrite heq]
    · rw [if_neg (not_not.2 hz), if_pos heq, hleave hz _ (update_of_ne hab _ _)]
    · rw [if_pos hz, if_pos heq]
  refine ⟨⟨?_, ?_, ?_, ?_, ?_⟩, hcpu⟩
  · -- the value written to the row, then the one it came from
    refine (h.write hb (x.2.minPCpu a)).update ha (x := 0) hcpu ?_
    simp only [move, reduceCtorEq, if_false, if_true, update_of_ne hab]
    split_ifs <;> simp_all
  · simp only [move]
    split_ifs <;> rfl
  · simp only [move]
    split_ifs <;> rfl
  · simp only [move]
    split_ifs <;> rfl
  · intro hquiet
    have hsame : x.1 = false ∧ x.2.minPCpu a = x.2.minPCpu b := by
      simp only [move, reduceCtorEq, if_false, if_true] at hquiet
      split at hquiet
      · cases hquiet
      next heq => exact ⟨hquiet, not_not.1 heq⟩
    refine ⟨hsame.1, fun i hi => ?_⟩
    rw [hcpu]
    simp only [shift, update_of_ne (by omega : i ≠ a), update_apply]
    split
    next hib => rw [hib, hsame.2]
    next => rfl

theorem move_swap (h : x.2.Counted n) {a b : Nat} (ha : a < n) (hb : b < n) :
    Part n k x (move x (a, b, .swap)) ∧ (move x (a, b, .swap)).2.minPCpu = shift 0 x.2.minPCpu (a, b, .swap) := by
  simp only [move, reduceCtorEq, if_false, if_true]
  split
  next hne =>
    have hab : a ≠ b := fun heq => hne (by rw [heq])
    have hcpu : update (update x.2.minPCpu b (x.2.minPCpu a)) a (x.2.minPCpu b) =
      InputBatch.swapCells x.2.minPCpu a b :=
      update_comm hab.symm _ _ _
    refine ⟨⟨?_, rfl, rfl, rfl, fun hx => by cases hx⟩, hcpu⟩
    refine (h.write hb (x.2.minPCpu a)).update ha (x := x.2.minPCpu b) rfl ?_
    simp only [update_of_ne hab]
    omega
  next heq =>
    rw [not_not] at heq
    refine ⟨.refl h, ?_⟩
    simp only [shift, InputBatch.swapCells]
    rw [← heq, update_eq_self, heq, update_eq_self]

theorem foldl_move_part {l : List MovedRequest} (h : x.2.Counted n) (hl : ∀ m ∈ l, m.1 < n ∧ m.2.1 < n)
    (hd : ∀ m ∈ l, m.2.2 = .unidirectional → m.1 ≠ m.2.1 ∧ k ≤ m.1) :
    Part n k x (l.foldl move x) ∧ (l.foldl move x).2.minPCpu = l.foldl (shift 0) x.2.minPCpu := by
  induction l generalizing x with
  | nil => exact ⟨.refl h, rfl⟩
  | cons m l ih =>
    have hstep : Part n k x (move x m) ∧ (move x m).2.minPCpu = shift 0 x.2.minPCpu m := by
      obtain ⟨ha, hb⟩ := hl m mem_cons_self
      have hm := hd m mem_cons_self
      rcases m with ⟨a, b, - | -⟩
      · exact move_down h ha hb (hm rfl).1 (hm rfl).2
      · exact move_swap h ha hb
    obtain ⟨h₂, e₂⟩ :=
      ih hstep.1.counted (fun m' hm' => hl m' (mem_cons_of_mem m hm')) fun m' hm' => hd m' (mem_cons_of_mem m hm')
    exact ⟨hstep.1.trans h₂, by rw [foldl_cons, foldl_cons, e₂, hstep.2]⟩

end

end MinPLogitsProcessor

def SamplingParams.Exact (p : SamplingParams) : Prop := SinglePrecision.toSingle p.minP = 0 → p.minP = 0

structure BatchUpdateBuilder.Proper (n k : Nat) (u : BatchUpdateBuilder) : Prop where
  added : ∀ a ∈ u.added, a.1 < n
  exact : ∀ a ∈ u.added, a.2.1.Exact
  removed : ∀ i ∈ u.removed, i < n
  moved : ∀ m ∈ u.moved, m.1 < n ∧ m.2.1 < n
  down : ∀ m ∈ u.moved, m.2.2 = .unidirectional → m.1 ≠ m.2.1 ∧ k ≤ m.1

namespace MinPLogitsProcessor

open SinglePrecision (toSingle)

variable {n k : Nat} {p : MinPLogitsProcessor} {u : BatchUpdateBuilder}

theorem relocate_part (hu : u.Proper n k) {x : Bool × MinPLogitsProcessor} (h : x.2.Counted n) :
    Part n k x (relocate ⟨k, u.removed, u.added, u.moved⟩ x) ∧
      (relocate ⟨k, u.removed, u.added, u.moved⟩ x).2.minPCpu = u.moved.foldl (shift 0)
        (clear 0 u.removed x.2.minPCpu) := by
  unfold relocate
  split
  next hz =>
    refine ⟨.refl h, ?_⟩
    rw [h.eq_zero hz, relocate_const]
  next =>
    have hremoved : Part n k x (if u.removed = [] then x else (true, u.removed.foldl remove x.2)) ∧
        (if u.removed = [] then x else (true, u.removed.foldl remove x.2)).2.minPCpu =
          clear 0 u.removed x.2.minPCpu := by
      split
      next hnil =>
        rw [hnil]
        exact ⟨.refl h, rfl⟩
      next =>
        obtain ⟨h₁, e₁⟩ := foldl_remove_part (k := k) h hu.removed
        exact ⟨{ h₁ with quiet := fun hx => by cases hx }, e₁⟩
    obtain ⟨h₂, e₂⟩ := foldl_move_part (k := k) hremoved.1.counted hu.moved hu.down
    exact ⟨hremoved.1.trans h₂, by rw [e₂, hremoved.2]⟩

def Sliced (k : Nat) (p : MinPLogitsProcessor) : Prop :=
  p.minPCount ≠ 0 → p.size = k ∧ ∀ i < k, p.sliceAt i = p.minPCpu i

theorem updateTensors_frame (size : Nat) (x : Bool × MinPLogitsProcessor) :
    (updateTensors size x).minPCpu = x.2.minPCpu ∧ (updateTensors size x).minPCount = x.2.minPCount := by
  unfold updateTensors
  split <;> exact ⟨rfl, rfl⟩

theorem updateState_part (hu : u.Proper n k) (h : p.Counted n)
    (hne : ¬ (u.removed = [] ∧ u.moved = [] ∧ u.added = [])) :
    ∃ x, p.updateState (u.getAndReset k) = updateTensors k x ∧ Part n k (false, p) x ∧
      x.2.minPCpu = track 0 (fun q _ => toSingle q.minP) u p.minPCpu := by
  obtain ⟨h₁, e₁⟩ := foldl_add_part (k := k) (x := (false, p)) h hu.added hu.exact
  obtain ⟨h₂, e₂⟩ := relocate_part hu h₁.counted
  refine ⟨_, ?_, h₁.trans h₂, by rw [e₂, e₁, track]⟩
  rw [BatchUpdateBuilder.getAndReset, if_neg hne]
  rfl

theorem updateState_spec (hu : u.Proper n k) (h : p.Counted n) :
    (p.updateState (u.getAndReset k)).Counted n ∧
      (p.updateState (u.getAndReset k)).minPCpu = track 0 (fun q _ => toSingle q.minP) u p.minPCpu := by
  by_cases hnil : u.removed = [] ∧ u.moved = [] ∧ u.added = []
  · rw [BatchUpdateBuilder.getAndReset, if_pos hnil]
    obtain ⟨hr, hm, ha⟩ := hnil
    refine ⟨h, ?_⟩
    simp only [track, hr, hm, ha, foldl_nil]
    rfl
  · obtain ⟨x, hx, hpart, hcpu⟩ := updateState_part hu h hnil
    obtain ⟨fcpu, fcount⟩ := updateTensors_frame k x
    rw [hx]
    refine ⟨⟨?_, ?_⟩, fcpu.trans hcpu⟩
    · rw [fcount, fcpu]
      exact hpart.counted.count
    · rw [fcpu]
      exact hpart.counted.beyond

theorem updateState_sliced {k₀ : Nat} (hu : u.Proper n k)
    (h : p.Counted n) (hs : p.Sliced k₀) (hk : u.removed = [] ∧ u.moved = [] ∧ u.added = [] → k = k₀)
    (hbeyond : ∀ i, k ≤ i → track 0 (fun q _ => toSingle q.minP) u p.minPCpu i = 0) :
    (p.updateState (u.getAndReset k)).Sliced k := by
  by_cases hnil : u.removed = [] ∧ u.moved = [] ∧ u.added = []
  · rw [BatchUpdateBuilder.getAndReset, if_pos hnil, hk hnil]
    exact hs
  · obtain ⟨x, hx, hpart, hcpu⟩ := updateState_part hu h hnil
    rw [hx]
    unfold updateTensors
    split
    next hchange =>
      refine fun _ => ⟨rfl, fun i hi => ?_⟩
      unfold sliceAt
      split
      · exact if_pos hi
      · rfl
    next hsame =>
      intro hcount
      rw [not_and, not_or, not_not] at hsame
      obtain ⟨hflag, hsize⟩ := hsame hcount
      obtain ⟨-, hquiet⟩ := hpart.quiet (Bool.eq_false_iff.2 hflag)
      -- a value of the batch was there before
      have hbefore : p.minPCount ≠ 0 := by
        intro hzero
        refine hcount ?_
        have hnone : ∀ i, x.2.minPCpu i = 0 := by
          intro i
          by_cases hi : i < k
          · rw [hquiet i hi]
            exact congrFun (h.eq_zero hzero) i
          · rw [hcpu]
            exact hbeyond i (by omega)
        rw [hpart.counted.count]
        simp [hnone]
      obtain ⟨hold, hslice⟩ := hs hbefore
      have hkk : k₀ = k := by rw [← hold, ← hsize, hpart.size]
      refine ⟨hsize, fun i hi => ?_⟩
      rw [hquiet i hi]
      unfold sliceAt at hslice ⊢
      rw [hpart.double, hpart.device, hquiet i hi]
      exact hslice i (hkk ▸ hi)

end MinPLogitsProcessor

end Xmix.Worker
