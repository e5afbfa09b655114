import Mathlib.Data.Multiset.Filter
import Mathlib.Data.Multiset.AddSub
import Mathlib.Data.Prod.Lex
import Xmix.Lib.Except
import Xmix.Lib.Heap
import Xmix.Lib.Runs
import Xmix.Sched.Request

/-!
# PriorityRequestQueue

The queue keeps tuples `(priority, arrival_time, request)` in a heap. Requests have no order of
their own, so that the comparison of two tuples raises if they agree in priority and arrival time
and hold different requests. As long as no two requests of a queue are tied, no operation raises and
the queue is a priority queue; with two of them the second `add_request` already raises.
-/

namespace Xmix.Sched

open Xmix.Except List Function

variable {κ ι τ : Type} [DecidableEq κ] [DecidableEq ι] [LinearOrder τ]

structure HeapEntry (ι τ : Type) where
  priority : Int
  arrivalTime : τ
  request : ι

def HeapEntry.lt (a b : HeapEntry ι τ) : Option Bool :=
  if a.priority ≠ b.priority then some (a.priority < b.priority)
  else if a.arrivalTime ≠ b.arrivalTime then some (a.arrivalTime < b.arrivalTime)
  else if a.request = b.request then some false
  else none

inductive QueueError where
  | typeError
  | indexError
  deriving DecidableEq

def orTypeError {α : Type} : Option α → Except QueueError α
  | some a => .ok a
  | none => .error .typeError

structure PriorityRequestQueue (ι τ : Type) where
  heap : List (HeapEntry ι τ)

namespace PriorityRequestQueue

section Operations
variable (rank : ι → Int × τ)

variable (q : PriorityRequestQueue ι τ)

def addRequest (r : ι) : Except QueueError (PriorityRequestQueue ι τ) := do
  let heap ← orTypeError (Heap.heappush HeapEntry.lt q.heap ⟨(rank r).1, (rank r).2, r⟩)
  .ok ⟨heap⟩

def popRequest : Except QueueError (ι × PriorityRequestQueue ι τ) := do
  match ← orTypeError (Heap.heappop HeapEntry.lt q.heap) with
  | none => .error .indexError
  | some (e, heap) => .ok (e.request, ⟨heap⟩)

def peekRequest : Except QueueError ι :=
  match q.heap with
  | [] => .error .indexError
  | e :: _ => .ok e.request

def prependRequest (r : ι) : Except QueueError (PriorityRequestQueue ι τ) := q.addRequest rank r

def prependLoop : Nat → List (HeapEntry ι τ) → PriorityRequestQueue ι τ → Except QueueError (PriorityRequestQueue ι τ)
  | 0, _, q => .ok q
  | rounds + 1, copy, q => do
    match ← orTypeError (Heap.heappop HeapEntry.lt copy) with
    | none => .ok q
    | some (e, copy) => do
      let q ← q.addRequest rank e.request
      prependLoop rounds copy q

def prependRequests (q requests : PriorityRequestQueue ι τ) : Except QueueError (PriorityRequestQueue ι τ) :=
  prependLoop rank requests.heap.length requests.heap q

def keep (P : ι → Bool) : Except QueueError (PriorityRequestQueue ι τ) := do
  let heap ← orTypeError (Heap.heapify HeapEntry.lt (q.heap.filter fun e => P e.request))
  .ok ⟨heap⟩

def removeRequest (r : ι) : Except QueueError (PriorityRequestQueue ι τ) := q.keep (· ≠ r)

def removeRequests (rs : List ι) : Except QueueError (PriorityRequestQueue ι τ) := q.keep (· ∉ rs)

def iterate : Except QueueError (List ι) := do
  let es ← orTypeError (Heap.popAll HeapEntry.lt q.heap.length q.heap)
  .ok (es.map HeapEntry.request)

end Operations

def contents (q : PriorityRequestQueue ι τ) : Multiset ι := (q.heap.map HeapEntry.request : List ι)

omit [DecidableEq ι] [LinearOrder τ] in
theorem mem_contents {q : PriorityRequestQueue ι τ} {r : ι} : r ∈ q.contents ↔ ∃ e ∈ q.heap, e.request = r := by
  simp [contents]

end PriorityRequestQueue

/-! ### Keys -/

def HeapEntry.key (e : HeapEntry ι τ) : Int ×ₗ τ := toLex (e.priority, e.arrivalTime)

theorem HeapEntry.lt_eq {a b : HeapEntry ι τ} (h : a.key = b.key → a.request = b.request) :
    a.lt b = some (decide (a.key < b.key)) := by
  have hlt : a.key < b.key ↔ a.priority < b.priority ∨ a.priority = b.priority ∧
    a.arrivalTime < b.arrivalTime := Prod.Lex.toLex_lt_toLex
  rw [HeapEntry.lt]
  split
  next hp => simp [hlt, hp]
  next hp =>
    rw [not_not] at hp
    split
    next ht => simp [hlt, hp]
    next ht =>
      rw [not_not] at ht
      have hkey : a.key = b.key := by rw [key, key, hp, ht]
      rw [if_pos (h hkey), hkey]
      simp

section Ranked
variable (rank : ι → Int × τ)

/-- No two requests have one rank. -/
def Untied (m : Multiset ι) : Prop := ∀ a ∈ m, ∀ b ∈ m, rank a = rank b → a = b

def RankLe (a b : ι) : Prop := toLex (rank a) ≤ toLex (rank b)

structure PriorityRequestQueue.Wf (q : PriorityRequestQueue ι τ) : Prop where
  entries : ∀ e ∈ q.heap, (e.priority, e.arrivalTime) = rank e.request
  ordered : Heap.OrderedFrom HeapEntry.key q.heap 0
  untied : Untied rank q.contents

variable {rank}

omit [DecidableEq ι] [LinearOrder τ] in
theorem Untied.mono {m m' : Multiset ι} (h : Untied rank m) (hm : ∀ r ∈ m', r ∈ m) : Untied rank m' :=
  fun a ha b hb => h a (hm a ha) b (hm b hb)

theorem compares_of_untied {l : List (HeapEntry ι τ)} {m : Multiset ι}
    (h : Untied rank m) (hl : ∀ e ∈ l, (e.priority, e.arrivalTime) = rank e.request ∧ e.request ∈ m) :
    Heap.Compares HeapEntry.key HeapEntry.lt l := by
  refine fun a ha b hb => HeapEntry.lt_eq fun hkey => h _ (hl a ha).2 _ (hl b hb).2 ?_
  rw [← (hl a ha).1, ← (hl b hb).1]
  exact hkey

namespace PriorityRequestQueue

variable {q other : PriorityRequestQueue ι τ} {r : ι}

theorem Wf.compares (h : q.Wf rank) : Heap.Compares HeapEntry.key HeapEntry.lt q.heap :=
  compares_of_untied h.untied fun e he => ⟨h.entries e he, mem_contents.2 ⟨e, he, rfl⟩⟩

omit [DecidableEq ι] in
theorem wf_empty : (⟨[]⟩ : PriorityRequestQueue ι τ).Wf rank where
  entries := by simp
  ordered := fun i _ _ => Heap.le_of_length_le (Nat.zero_le i)
  untied := by simp [contents, Untied]

omit [DecidableEq ι] in
theorem Wf.key_le_iff (h : q.Wf rank) {a b : HeapEntry ι τ} (ha : a ∈ q.heap) (hb : b ∈ q.heap) :
    a.key ≤ b.key ↔ RankLe rank a.request b.request := by
  rw [RankLe, ← h.entries a ha, ← h.entries b hb]
  rfl

/-! ### The operations -/

theorem Wf.addRequest (h : q.Wf rank) (hr : Untied rank (r ::ₘ q.contents)) :
    ∃ q', q.addRequest rank r = .ok q' ∧ q'.Wf rank ∧ q'.contents = r ::ₘ q.contents := by
  let e : HeapEntry ι τ := ⟨(rank r).1, (rank r).2, r⟩
  have hentries : ∀ x ∈ e :: q.heap, (x.priority, x.arrivalTime) = rank x.request ∧ x.request ∈ r ::ₘ q.contents := by
    intro x hx
    rcases mem_cons.1 hx with rfl | hx
    · exact ⟨rfl, Multiset.mem_cons_self r _⟩
    · exact ⟨h.entries x hx, Multiset.mem_cons_of_mem (mem_contents.2 ⟨x, hx, rfl⟩)⟩
  obtain ⟨heap, hpush, hord⟩ := Heap.heappush_ordered (compares_of_untied hr hentries) h.ordered
  have hperm := Heap.heappush_perm hpush
  have hcontents : (⟨heap⟩ : PriorityRequestQueue ι τ).contents = r ::ₘ q.contents :=
    Multiset.coe_eq_coe.2 (hperm.map HeapEntry.request)
  refine ⟨⟨heap⟩, ?_, ⟨fun x hx => (hentries x (hperm.mem_iff.1 hx)).1, hord, hcontents ▸ hr⟩, hcontents⟩
  rw [PriorityRequestQueue.addRequest, hpush]
  rfl

theorem Wf.popHeap {e : HeapEntry ι τ} {es : List (HeapEntry ι τ)}
    (h : (⟨e :: es⟩ : PriorityRequestQueue ι τ).Wf rank) :
    ∃ heap, Heap.heappop HeapEntry.lt (e :: es) = some (some (e, heap)) ∧ heap.Perm es ∧
      (⟨heap⟩ : PriorityRequestQueue ι τ).Wf rank ∧ ∀ x ∈ e :: es, RankLe rank e.request x.request := by
  obtain ⟨heap, hpop, hord, hroot⟩ := Heap.heappop_ordered h.compares h.ordered
  have hperm : heap.Perm es := (Heap.heappop_perm hpop).cons_inv
  have hmem : ∀ x ∈ heap, x ∈ e :: es := fun x hx => mem_cons_of_mem e (hperm.mem_iff.1 hx)
  refine ⟨heap, hpop, hperm, ⟨fun x hx => h.entries x (hmem x hx), hord, h.untied.mono fun r hr => ?_⟩, fun x hx => ?_⟩
  · obtain ⟨x, hx, rfl⟩ := mem_contents.1 hr
    exact mem_contents.2 ⟨x, hmem x hx, rfl⟩
  · exact (h.key_le_iff mem_cons_self hx).1 (hroot x hx)

structure First (rank : ι → Int × τ) (m : Multiset ι) (r : ι) : Prop where
  mem : r ∈ m
  least : ∀ x ∈ m, RankLe rank r x

theorem Wf.popRequest (h : q.Wf rank) (hq : q.contents ≠ 0) :
    ∃ r q', q.popRequest = .ok (r, q') ∧ q.peekRequest = .ok r ∧ q'.Wf rank ∧ First rank q.contents r ∧
      q'.contents = q.contents.erase r := by
  obtain ⟨_ | ⟨e, es⟩⟩ := q
  · exact absurd rfl hq
  · obtain ⟨heap, hpop, hperm, hwf, hleast⟩ := h.popHeap
    refine ⟨e.request, ⟨heap⟩, ?_, rfl, hwf, ⟨mem_contents.2 ⟨e, mem_cons_self, rfl⟩, fun x hx => ?_⟩, ?_⟩
    · rw [popRequest, hpop]
      rfl
    · obtain ⟨y, hy, rfl⟩ := mem_contents.1 hx
      exact hleast y hy
    · have hcons : (⟨e :: es⟩ : PriorityRequestQueue ι τ).contents =
        e.request ::ₘ (⟨es⟩ : PriorityRequestQueue ι τ).contents := rfl
      rw [hcons, Multiset.erase_cons_head]
      exact Multiset.coe_eq_coe.2 (hperm.map HeapEntry.request)

theorem popRequest_empty (hq : q.contents = 0) :
    q.popRequest = .error .indexError ∧ q.peekRequest = .error .indexError := by
  obtain ⟨_ | ⟨e, es⟩⟩ := q
  · exact ⟨rfl, rfl⟩
  · cases Multiset.coe_eq_zero _ |>.1 hq

theorem Wf.keep (h : q.Wf rank) (P : ι → Bool) :
    ∃ q', q.keep P = .ok q' ∧ q'.Wf rank ∧ q'.contents = q.contents.filter fun r => P r = true := by
  have hsub : ∀ x ∈ q.heap.filter fun e => P e.request, x ∈ q.heap := fun x hx => (mem_filter.1 hx).1
  have hcmp : Heap.Compares HeapEntry.key HeapEntry.lt (q.heap.filter fun e => P e.request) :=
    fun a ha b hb => h.compares a (hsub a ha) b (hsub b hb)
  obtain ⟨heap, hheap, hord⟩ := Heap.heapify_ordered hcmp
  have hperm := Heap.heapify_perm hheap
  have hcontents : (⟨heap⟩ : PriorityRequestQueue ι τ).contents = q.contents.filter fun r => P r = true := by
    refine (Multiset.coe_eq_coe.2 (hperm.map HeapEntry.request)).trans ?_
    rw [contents, Multiset.filter_coe, filter_map]
    congr 2
    exact filter_congr fun x _ => by simp
  refine ⟨⟨heap⟩, ?_, ⟨fun x hx => h.entries x (hsub x (hperm.mem_iff.1 hx)), hord, ?_⟩, hcontents⟩
  · rw [PriorityRequestQueue.keep, hheap]
    rfl
  · rw [hcontents]
    exact h.untied.mono fun r hr => Multiset.mem_of_mem_filter hr

theorem Wf.iterate (h : q.Wf rank) : ∃ rs, q.iterate = .ok rs ∧
      (rs : Multiset ι) = q.contents ∧ rs.Pairwise (RankLe rank) := by
  obtain ⟨es, hes, hperm, hsorted⟩ := Heap.popAll_sorted h.compares h.ordered (Nat.le_refl _)
  refine ⟨es.map HeapEntry.request, ?_, Multiset.coe_eq_coe.2 (hperm.map _), ?_⟩
  · rw [PriorityRequestQueue.iterate, hes]
    rfl
  · refine pairwise_map.2 (hsorted.imp_of_mem fun ha hb hle => ?_)
    exact (h.key_le_iff (hperm.mem_iff.1 ha) (hperm.mem_iff.1 hb)).1 hle

theorem prependLoop_wf {rounds : Nat} {copy : List (HeapEntry ι τ)} (h : q.Wf rank)
    (hcopy : (⟨copy⟩ : PriorityRequestQueue ι τ).Wf rank) (hrounds : copy.length ≤ rounds)
    (huntied : Untied rank (q.contents + (⟨copy⟩ : PriorityRequestQueue ι τ).contents)) :
    ∃ q', prependLoop rank rounds copy q = .ok q' ∧ q'.Wf rank ∧
      q'.contents = q.contents + (⟨copy⟩ : PriorityRequestQueue ι τ).contents := by
  induction rounds generalizing q copy with
  | zero =>
    obtain rfl : copy = [] := length_eq_zero_iff.1 (Nat.le_zero.1 hrounds)
    exact ⟨q, rfl, h, (Multiset.add_zero _).symm⟩
  | succ rounds ih =>
    rcases copy with - | ⟨e, es⟩
    · exact ⟨q, rfl, h, (Multiset.add_zero _).symm⟩
    · obtain ⟨heap, hpop, hperm, hwf, -⟩ := hcopy.popHeap
      have hes : (⟨heap⟩ : PriorityRequestQueue ι τ).contents = (⟨es⟩ : PriorityRequestQueue ι τ).contents :=
        Multiset.coe_eq_coe.2 (hperm.map HeapEntry.request)
      have hcons : q.contents + (⟨e :: es⟩ : PriorityRequestQueue ι τ).contents =
          e.request ::ₘ q.contents + (⟨heap⟩ : PriorityRequestQueue ι τ).contents := by
        rw [hes, Multiset.cons_add, ← Multiset.add_cons]
        rfl
      rw [hcons] at huntied ⊢
      obtain ⟨q₁, hq₁, hwf₁, hcontents₁⟩ :=
        h.addRequest (r := e.request) (huntied.mono fun r hr => Multiset.mem_add.2 (.inl hr))
      rw [← hcontents₁] at huntied ⊢
      obtain ⟨q', hq', hwf', hcontents'⟩ :=
        ih hwf₁ hwf (by rw [hperm.length_eq]; exact Nat.le_of_succ_le_succ hrounds) huntied
      refine ⟨q', ?_, hwf', hcontents'⟩
      rw [prependLoop, hpop]
      simp only [orTypeError, ok_bind, hq₁]
      exact hq'

theorem Wf.prependRequests (h : q.Wf rank) (hother : other.Wf rank)
    (huntied : Untied rank (q.contents + other.contents)) :
    ∃ q', q.prependRequests rank other = .ok q' ∧ q'.Wf rank ∧ q'.contents = q.contents + other.contents :=
  prependLoop_wf h hother (Nat.le_refl _) huntied

/-- The heap refines the list that the scheduler keeps in order. -/
theorem Wf.iterate_addRequest {rank : ι → Int × Int} {q : PriorityRequestQueue ι Int} (h : q.Wf rank)
    (hr : Untied rank (r ::ₘ q.contents)) {rs : List ι} (hrs : q.iterate = .ok rs) :
    ∃ q', q.addRequest rank r = .ok q' ∧ q'.iterate = .ok (Sched.addRequest .priority rank rs r) := by
  obtain ⟨q', hq', hwf, hcontents⟩ := h.addRequest hr
  obtain ⟨rs₀, hrs₀, hperm, hsorted⟩ := h.iterate
  obtain rfl : rs₀ = rs := Except.ok.inj (hrs₀.symm.trans hrs)
  obtain ⟨rs', hrs', hperm', hsorted'⟩ := hwf.iterate
  refine ⟨q', hq', hrs'.trans (congrArg _ ?_)⟩
  have hrank : RankLe rank = rankLe rank := funext fun a => funext fun b => propext Prod.Lex.toLex_le_toLex
  rw [hrank] at hsorted hsorted'
  have htotal : Std.Total (rankLe rank) := ⟨fun a b => by
    unfold rankLe
    omega⟩
  have htrans : IsTrans ι (rankLe rank) := ⟨fun a b c => by
    unfold rankLe
    omega⟩
  have hins : (rs' : Multiset ι) = (Sched.addRequest .priority rank rs₀ r : List ι) := by
    rw [hperm', hcontents, ← hperm]
    exact (Multiset.coe_eq_coe.2 (perm_orderedInsert _ r rs₀)).symm
  refine Perm.eq_of_pairwise (fun a b ha hb hab hba => ?_) hsorted' (hsorted.orderedInsert r rs₀)
    (Multiset.coe_eq_coe.1 hins)
  rw [← Multiset.mem_coe, hperm'] at ha
  rw [← Multiset.mem_coe, ← hins, hperm'] at hb
  refine hwf.untied a ha b hb (Prod.ext ?_ ?_)
  · unfold rankLe at hab hba
    omega
  · unfold rankLe at hab hba
    omega

def arrival (r : Nat) : Int × Int := (0, r)

/-- The heap becomes `[1, 3, 2]`, and the iteration yields `2` before `3`. -/
theorem iterate_addRequest_between : ∃ q : PriorityRequestQueue Nat Int, q.contents = {1, 3} ∧ q.iterate = .ok [1, 3] ∧
    ∃ q', q.addRequest arrival 2 = .ok q' ∧ q'.iterate = .ok [1, 2, 3] := by
  have huntied : ∀ m, Untied arrival m := fun _ a _ b _ h => Int.ofNat.inj (congrArg Prod.snd h)
  obtain ⟨q₁, hq₁, hwf₁, -⟩ := wf_empty.addRequest (r := 3) (huntied _)
  obtain ⟨q₂, hq₂, hwf₂, -⟩ := hwf₁.addRequest (r := 1) (huntied _)
  cases hq₁
  cases hq₂
  exact ⟨_, by decide, rfl, hwf₂.iterate_addRequest (huntied _) rfl⟩

end PriorityRequestQueue

/-! ### Runs

Any number of queues, each with its name.
-/

inductive QueueOp (κ ι : Type) where
  | addRequest (k : κ) (r : ι)
  | prependRequest (k : κ) (r : ι)
  | prependRequests (k requests : κ)
  | popRequest (k : κ)
  | peekRequest (k : κ)
  | removeRequest (k : κ) (r : ι)
  | removeRequests (k : κ) (rs : List ι)
  | iterate (k : κ)

namespace QueueOp

open PriorityRequestQueue

variable (rank)

def exec (qs : κ → PriorityRequestQueue ι τ) : QueueOp κ ι → Except QueueError (List ι × (κ → PriorityRequestQueue ι τ))
  | .addRequest k r => do
    let q ← (qs k).addRequest rank r
    .ok ([], update qs k q)
  | .prependRequest k r => do
    let q ← (qs k).prependRequest rank r
    .ok ([], update qs k q)
  | .prependRequests k requests => do
    let q ← (qs k).prependRequests rank (qs requests)
    .ok ([], update qs k q)
  | .popRequest k => do
    let (r, q) ← (qs k).popRequest
    .ok ([r], update qs k q)
  | .peekRequest k => do
    let r ← (qs k).peekRequest
    .ok ([r], qs)
  | .removeRequest k r => do
    let q ← (qs k).removeRequest r
    .ok ([], update qs k q)
  | .removeRequests k rs => do
    let q ← (qs k).removeRequests rs
    .ok ([], update qs k q)
  | .iterate k => do
    let rs ← (qs k).iterate
    .ok (rs, qs)

def step (qs : κ → PriorityRequestQueue ι τ) (op : QueueOp κ ι) : Option (κ → PriorityRequestQueue ι τ) :=
  match op.exec rank qs with
  | .ok (_, qs') => some qs'
  | .error .indexError => some qs
  | .error .typeError => none

/-- What goes into a queue ties with no other request there. -/
def Separates (qs : κ → PriorityRequestQueue ι τ) : QueueOp κ ι → Prop
  | .addRequest k r | .prependRequest k r => ∀ x ∈ (qs k).contents, rank x = rank r → x = r
  | .prependRequests k requests => ∀ x ∈ (qs k).contents, ∀ r ∈ (qs requests).contents, rank x = rank r → x = r
  | _ => True

def Meets (m m' : κ → Multiset ι) (out : List ι) : QueueOp κ ι → Prop
  | .addRequest k r | .prependRequest k r => m' = update m k (r ::ₘ m k) ∧ out = []
  | .prependRequests k requests => m' = update m k (m k + m requests) ∧ out = []
  | .popRequest k => ∃ r, First rank (m k) r ∧ m' = update m k ((m k).erase r) ∧ out = [r]
  | .peekRequest k => ∃ r, First rank (m k) r ∧ m' = m ∧ out = [r]
  | .removeRequest k r => m' = update m k ((m k).filter (· ≠ r)) ∧ out = []
  | .removeRequests k rs => m' = update m k ((m k).filter (· ∉ rs)) ∧ out = []
  | .iterate k => (out : Multiset ι) = m k ∧ out.Pairwise (RankLe rank) ∧ m' = m

variable {rank}

def wants : QueueOp κ ι → Option κ
  | .popRequest k | .peekRequest k => some k
  | _ => none

section
variable {rank : ι → Int × τ} {qs qs' : κ → PriorityRequestQueue ι τ} {op : QueueOp κ ι} {k : κ}

section

omit [DecidableEq ι]

omit [LinearOrder τ] in
theorem contents_update {q : PriorityRequestQueue ι τ} :
    (fun x => (update qs k q x).contents) = update (fun x => (qs x).contents) k q.contents := by
  funext x
  by_cases hx : x = k
  · subst hx
    simp
  · simp [hx]

theorem wf_update {q : PriorityRequestQueue ι τ} (h : ∀ x, (qs x).Wf rank) (hq : q.Wf rank) (x : κ) :
    (update qs k q x).Wf rank := by
  by_cases hx : x = k
  · subst hx
    simpa using hq
  · simpa [hx] using h x

omit [LinearOrder τ] in
theorem untied_cons {r : ι} {m : Multiset ι} (h : Untied rank m)
    (hr : ∀ x ∈ m, rank x = rank r → x = r) : Untied rank (r ::ₘ m) := by
  intro a ha b hb hab
  rcases Multiset.mem_cons.1 ha with har | ha <;> rcases Multiset.mem_cons.1 hb with hbr | hb
  · exact har.trans hbr.symm
  · exact har.trans (hr b hb (hab.symm.trans (congrArg rank har))).symm
  · exact (hr a ha (hab.trans (congrArg rank hbr))).trans hbr.symm
  · exact h a ha b hb hab

omit [LinearOrder τ] in
theorem untied_add {m m' : Multiset ι} (h : Untied rank m)
    (h' : Untied rank m') (hr : ∀ x ∈ m, ∀ r ∈ m', rank x = rank r → x = r) :
    Untied rank (m + m') := by
  intro a ha b hb hab
  rcases Multiset.mem_add.1 ha with ha | ha <;> rcases Multiset.mem_add.1 hb with hb | hb
  · exact h a ha b hb hab
  · exact hr a ha b hb hab
  · exact (hr b hb a ha hab.symm).symm
  · exact h' a ha b hb hab

end

theorem exec_meets (h : ∀ k, (qs k).Wf rank) (hop : op.Separates rank qs) :
    (∃ k, op.wants = some k ∧ (qs k).contents = 0 ∧ op.exec rank qs = .error .indexError) ∨
      ∃ out qs', op.exec rank qs = .ok (out, qs') ∧ (∀ k, (qs' k).Wf rank) ∧
        op.Meets rank (fun k => (qs k).contents) (fun k => (qs' k).contents) out := by
  cases op with
  | addRequest k r | prependRequest k r =>
    obtain ⟨q, hq, hwf, hcontents⟩ := (h k).addRequest (untied_cons (h k).untied hop)
    refine .inr ⟨[], update qs k q, ?_, wf_update h hwf, ?_, rfl⟩
    · simp only [exec, PriorityRequestQueue.prependRequest, hq, ok_bind]
    · rw [contents_update, hcontents]
  | prependRequests k requests =>
    obtain ⟨q, hq, hwf, hcontents⟩ :=
      (h k).prependRequests (h requests) (untied_add (h k).untied (h requests).untied hop)
    refine .inr ⟨[], update qs k q, ?_, wf_update h hwf, ?_, rfl⟩
    · simp only [exec, hq, ok_bind]
    · rw [contents_update, hcontents]
  | popRequest k =>
    by_cases hk : (qs k).contents = 0
    · exact .inl ⟨k, rfl, hk, by simp only [exec, (popRequest_empty hk).1, error_bind]⟩
    · obtain ⟨r, q, hq, -, hwf, hfirst, hcontents⟩ := (h k).popRequest hk
      refine .inr ⟨[r], update qs k q, ?_, wf_update h hwf, r, hfirst, ?_, rfl⟩
      · simp only [exec, hq, ok_bind]
      · rw [contents_update, hcontents]
  | peekRequest k =>
    by_cases hk : (qs k).contents = 0
    · exact .inl ⟨k, rfl, hk, by simp only [exec, (popRequest_empty hk).2, error_bind]⟩
    · obtain ⟨r, q, -, hr, -, hfirst, -⟩ := (h k).popRequest hk
      refine .inr ⟨[r], qs, ?_, h, r, hfirst, rfl, rfl⟩
      simp only [exec, hr, ok_bind]
  | removeRequest k r =>
    obtain ⟨q, hq, hwf, hcontents⟩ := (h k).keep (· ≠ r)
    refine .inr ⟨[], update qs k q, ?_, wf_update h hwf, ?_, rfl⟩
    · simp only [exec, PriorityRequestQueue.removeRequest, hq, ok_bind]
    · rw [contents_update, hcontents]
      simp only [decide_eq_true_eq]
  | removeRequests k rs =>
    obtain ⟨q, hq, hwf, hcontents⟩ := (h k).keep (· ∉ rs)
    refine .inr ⟨[], update qs k q, ?_, wf_update h hwf, ?_, rfl⟩
    · simp only [exec, PriorityRequestQueue.removeRequests, hq, ok_bind]
    · rw [contents_update, hcontents]
      simp only [decide_eq_true_eq]
  | iterate k =>
    obtain ⟨rs, hrs, hcontents, hsorted⟩ := (h k).iterate
    refine .inr ⟨rs, qs, ?_, h, hcontents, hsorted, rfl⟩
    simp only [exec, hrs, ok_bind]

theorem step_wf (h : ∀ k, (qs k).Wf rank) (hop : op.Separates rank qs)
    (hstep : op.step rank qs = some qs') (k : κ) : (qs' k).Wf rank := by
  obtain ⟨-, -, -, he⟩ | ⟨out, qs₁, he, hwf, -⟩ := exec_meets h hop
  · rw [step, he] at hstep
    cases hstep
    exact h k
  · rw [step, he] at hstep
    cases hstep
    exact hwf k

/-- In every run that adds no ties, an operation finds a queue empty or does what a priority queue does. -/
theorem run_meets {ops : List (QueueOp κ ι)} (hsteps : Along (fun qs op => step rank qs op)
      (fun qs op => op.Separates rank qs) (fun _ => ⟨[]⟩) ops)
    (hrun : runFrom (fun qs op => step rank qs op) (fun _ => ⟨[]⟩) ops = some qs)
    (op : QueueOp κ ι) (hop : op.Separates rank qs) :
    (∃ k, op.wants = some k ∧ (qs k).contents = 0 ∧ op.exec rank qs = .error .indexError) ∨
      ∃ out qs', op.exec rank qs = .ok (out, qs') ∧
        op.Meets rank (fun k => (qs k).contents) (fun k => (qs' k).contents) out := by
  have hwf : ∀ k, (qs k).Wf rank := hsteps.invariant (I := fun qs => ∀ k, (qs k).Wf rank)
    (fun _ _ _ h hop hstep => step_wf h hop hstep) (fun _ => wf_empty) hrun
  refine (exec_meets hwf hop).imp id ?_
  rintro ⟨out, qs', he, -, hmeets⟩
  exact ⟨out, qs', he, hmeets⟩

end

def smallRank (r : Nat) : Int × Int := (((r : Int) + 1) % 2, r)

def smallOps : List (QueueOp Unit Nat) :=
  [.addRequest () 0, .addRequest () 1, .prependRequest () 2, .removeRequest () 0]

/-- The last of the requests is the first to be popped. -/
theorem smallOps_pop : ∃ qs : Unit → PriorityRequestQueue Nat Int,
    runFrom (fun qs op => step smallRank qs op) (fun _ => ⟨[]⟩) smallOps = some qs ∧
    ∃ out qs', exec smallRank qs (.popRequest ()) = .ok (out, qs') ∧ out = [1] ∧
      Meets smallRank (fun k => (qs k).contents) (fun k => (qs' k).contents) out (.popRequest ()) := by
  obtain ⟨qs, hqs⟩ := Option.isSome_iff_exists.1 (show (runFrom (fun qs op => step smallRank qs op)
    (fun _ => (⟨[]⟩ : PriorityRequestQueue Nat Int)) smallOps).isSome from rfl)
  have hinj : ∀ x r, smallRank x = smallRank r → x = r := fun x r h => Int.ofNat.inj (congrArg Prod.snd h)
  have hsteps : Along (fun qs op => step smallRank qs op) (fun qs op => op.Separates smallRank qs)
      (fun _ => (⟨[]⟩ : PriorityRequestQueue Nat Int)) smallOps :=
    fun _ _ => ⟨fun x _ => hinj x 0, fun _ _ =>
      ⟨fun x _ => hinj x 1, fun _ _ => ⟨fun x _ => hinj x 2, fun _ _ => ⟨trivial, trivial⟩⟩⟩⟩
  have hpop : ((runFrom (fun qs op => step smallRank qs op)
    (fun _ => (⟨[]⟩ : PriorityRequestQueue Nat Int)) smallOps).any fun qs =>
      (exec smallRank qs (.popRequest ())).toOption.any fun x => x.1 = [1]) = true := by decide +kernel
  rw [hqs, Option.any_some, Option.any_eq_true] at hpop
  obtain ⟨⟨out, qs'⟩, he, hout⟩ := hpop
  rw [toOption_eq_some] at he
  obtain ⟨k, -, -, he'⟩ | ⟨out', qs'', he', hmeets⟩ := run_meets hsteps hqs (.popRequest ()) trivial
  · cases he.symm.trans he'
  · cases he.symm.trans he'
    exact ⟨qs, hqs, out, qs', he, of_decide_eq_true hout, hmeets⟩

/-- Two requests with one priority and one arrival time cannot be in a queue. -/
theorem tied_add_raises : ∃ qs : Unit → PriorityRequestQueue Nat Int,
    runFrom (fun qs op => step (fun _ => (0, 0)) qs op) (fun _ => ⟨[]⟩) [.addRequest () 0] = some qs ∧
      error? (exec (fun _ => (0, 0)) qs (.addRequest () 1)) = some .typeError :=
  ⟨_, rfl, by decide +kernel⟩

end QueueOp

end Ranked

end Xmix.Sched
