import Xmix.PyStr

/-!
# Reasoning parsers

`extract_reasoning_streaming` of the DeepSeek R1 parser, over the deltas of an output, against
`extract_reasoning` on its whole text. Tokens decide which case a delta is, and the text of a marker
is looked for where its token was seen: both split the tokens at the end token.
-/

namespace Xmix.Reasoning

open List PyStr

variable {τ : Type} [DecidableEq τ]

def startToken : Str := "<think>".toList

def endToken : Str := "</think>".toList

/-- The ids of the two markers, and the text each token decodes to. -/
structure Parser (τ : Type) where
  startTokenId : τ
  endTokenId : τ
  text : τ → Str
  text_start : text startTokenId = startToken
  text_end : text endTokenId = endToken

/-- Also the pair that `extract_reasoning` returns. -/
structure DeltaMessage where
  reasoning : Option Str
  content : Option Str

/-- Both parts, with nothing read as empty. -/
def parts (ret : Option DeltaMessage) : Str × Str := ((ret.bind (·.reasoning)).getD [], (ret.bind (·.content)).getD [])

def orNone (content : Str) : Option Str := if content = [] then none else some content

def partition (sep s : Str) : Str × Str × Str :=
  match find sep s 0 with
  | some i => (s.take i, sep, s.drop (i + sep.length))
  | none => (s, [], [])

def withoutStart (modelOutput : Str) : Str :=
  let outputParts := partition startToken modelOutput
  if outputParts.2.1 = [] then outputParts.1 else outputParts.2.2

def extractReasoning (modelOutput : Str) : DeltaMessage :=
  let modelOutput := withoutStart modelOutput
  if find endToken modelOutput 0 = none then ⟨some modelOutput, none⟩
  else
    let outputParts := partition endToken modelOutput
    ⟨some outputParts.1, orNone outputParts.2.2⟩

/-- `str.find`: -1 where there is no occurrence. -/
def index (w s : Str) : Int := (find w s 0).elim (-1) Nat.cast

/-- The text before the end marker, from `first` on, and what follows the marker. -/
def splitAtEnd (deltaText : Str) (first : Int) : DeltaMessage :=
  let endIndex := index endToken deltaText
  let content := deltaText.drop (sliceIndex (endIndex + endToken.length) deltaText.length)
  ⟨some ((deltaText.take (sliceIndex endIndex deltaText.length)).drop (sliceIndex first deltaText.length)),
    orNone content⟩

namespace Parser

variable (p : Parser τ)

def decode (ts : List τ) : Str := ts.flatMap p.text

/-- The cases of a delta after the start token; the override has them again for an output without one. -/
def thinking (previous delta : List τ) : DeltaMessage :=
  if p.endTokenId ∈ delta then splitAtEnd (p.decode delta) 0
  else if p.endTokenId ∈ previous then ⟨none, some (p.decode delta)⟩
  else ⟨some (p.decode delta), none⟩

def baseStreaming (previous delta : List τ) : Option DeltaMessage :=
  let deltaText := p.decode delta
  if delta = [p.startTokenId] ∨ delta = [p.endTokenId] then none
  else if p.startTokenId ∈ previous then some (p.thinking previous delta)
  else if p.startTokenId ∈ delta then
    if p.endTokenId ∈ delta then some (splitAtEnd deltaText (index startToken deltaText + startToken.length))
    else some ⟨some deltaText, none⟩
  else some ⟨none, some deltaText⟩

def extractReasoningStreaming (previous delta : List τ) : Option DeltaMessage :=
  let ret := p.baseStreaming previous delta
  if ret.isSome ∧ p.startTokenId ∉ previous ∧ p.startTokenId ∉ delta then some (p.thinking previous delta) else ret

/-- The reasoning and the content of all deltas after `previous`, each put together. -/
def streamed : List τ → List (List τ) → Str × Str
  | _, [] => ([], [])
  | previous, delta :: deltas =>
    let ret := parts (p.extractReasoningStreaming previous delta)
    let rest := streamed (previous ++ delta) deltas
    (ret.1 ++ rest.1, ret.2 ++ rest.2)

/-- The string of `m` stands in the text of `ts` only where the token does. -/
def Arises (m : τ) (ts : List τ) : Prop :=
  ∀ i, p.text m <+: (p.decode ts).drop i → ∃ a b, ts = a ++ m :: b ∧ (p.decode a).length = i

structure Once (m : τ) (ts : List τ) : Prop where
  arises : p.Arises m ts
  count_le : ts.count m ≤ 1

/-- The markers come from their tokens: the start first, if at all, and the end once. -/
structure Marked (out : List τ) : Prop where
  startFirst : p.startTokenId ∉ out.tail
  startArises : p.Arises p.startTokenId out
  endOnce : p.Once p.endTokenId out

/-! ### Splitting at the end token -/

/-- The reasoning and the content in `ts` after `previous`. -/
def parse (previous ts : List τ) : Str × Str :=
  if p.endTokenId ∈ previous then ([], p.decode ts)
  else (p.decode (ts.takeWhile (· ≠ p.endTokenId)), p.decode (ts.dropWhile (· ≠ p.endTokenId)).tail)

variable {p} {m : τ} {a b previous ts us : List τ}

omit [DecidableEq τ] in
@[simp] theorem decode_append : p.decode (a ++ b) = p.decode a ++ p.decode b := flatMap_append

omit [DecidableEq τ] in
@[simp] theorem decode_cons : p.decode (m :: b) = p.text m ++ p.decode b := flatMap_cons

theorem parse_of_notMem (hp : p.endTokenId ∉ previous) (h : p.endTokenId ∉ ts) :
    p.parse previous ts = (p.decode ts, []) := by
  have hne : ∀ t ∈ ts, decide (t ≠ p.endTokenId) = true := fun t ht => decide_eq_true fun heq => h (heq ▸ ht)
  rw [parse, if_neg hp, takeWhile_eq_self_iff.2 hne, dropWhile_eq_nil_iff.2 hne]
  rfl

theorem parse_of_mem (hp : p.endTokenId ∉ previous) (ha : p.endTokenId ∉ a) :
    p.parse previous (a ++ p.endTokenId :: b) = (p.decode a, p.decode b) := by
  have hne : ∀ t ∈ a, decide (t ≠ p.endTokenId) = true := fun t ht => decide_eq_true fun heq => ha (heq ▸ ht)
  rw [parse, if_neg hp, takeWhile_append_of_pos hne, dropWhile_append_of_pos hne]
  simp

theorem parse_append : p.parse previous (ts ++ us) =
    ((p.parse previous ts).1 ++ (p.parse (previous ++ ts) us).1,
      (p.parse previous ts).2 ++ (p.parse (previous ++ ts) us).2) := by
  by_cases hp : p.endTokenId ∈ previous
  · simp [parse, hp]
  · by_cases hm : p.endTokenId ∈ ts
    · obtain ⟨a, b, rfl, ha⟩ := eq_append_cons_of_mem hm
      rw [append_assoc, cons_append, parse_of_mem hp ha, parse_of_mem hp ha]
      simp [parse]
    · have hne : ∀ t ∈ ts, decide (t ≠ p.endTokenId) = true := fun t ht => decide_eq_true fun heq => hm (heq ▸ ht)
      rw [parse_of_notMem hp hm, parse, if_neg hp, parse, if_neg (by simp [hp, hm]),
        takeWhile_append_of_pos hne, dropWhile_append_of_pos hne, decode_append, nil_append]

/-! ### Where a marker is found -/

omit [DecidableEq τ] in
theorem Arises.part (h : p.Arises m us) (hts : ts <:+: us) (hm : p.text m ≠ []) : p.Arises m ts := fun j hj => by
  obtain ⟨a, b, rfl⟩ := hts
  have hpos := length_pos_iff.2 hm
  have hlen := hj.length_le
  rw [length_drop] at hlen
  obtain ⟨c, d, heq, hc⟩ := h ((p.decode a).length + j) <| by
    rw [append_assoc, decode_append, decode_append, drop_length_add_append, drop_append_of_le_length (by omega)]
    exact hj.trans (prefix_append _ _)
  -- the token does not start in `a` and not in `b`
  rcases append_eq_append_iff.1 ((append_assoc a ts b).symm.trans heq) with ⟨e, rfl, he⟩ | ⟨e, rfl, he⟩
  · rw [decode_append, length_append, Nat.add_left_cancel_iff] at hc
    rcases append_eq_append_iff.1 he with ⟨f, rfl, -⟩ | ⟨f, rfl, hf⟩
    · rw [decode_append, length_append] at hc
      omega
    · cases f with
      | nil =>
        rw [append_nil] at hlen
        omega
      | cons _ f =>
        cases hf
        exact ⟨e, f, rfl, hc⟩
  · cases e with
    | nil =>
      cases ts with
      | nil =>
        simp only [decode, flatMap_nil, length_nil] at hlen
        omega
      | cons _ ts =>
        cases he
        exact ⟨[], ts, rfl, by simpa [decode, eq_comm] using hc⟩
    | cons _ e =>
      cases he
      simp only [decode_append, decode_cons, length_append] at hc
      omega

theorem Once.part (h : p.Once m us) (hts : ts <:+: us) (hm : p.text m ≠ []) : p.Once m ts :=
  ⟨h.arises.part hts hm, Nat.le_trans (hts.sublist.count_le m) h.count_le⟩

theorem Once.notMem (h : p.Once m (ts ++ us)) (hm : m ∈ us) : m ∉ ts := fun hts => by
  have := h.count_le
  rw [count_append] at this
  have := count_pos_iff.2 hm
  have := count_pos_iff.2 hts
  omega

theorem search_text (h : p.Once m ts) (hm : p.text m ≠ []) :
    m ∉ ts ∧ find (p.text m) (p.decode ts) 0 = none ∧ partition (p.text m) (p.decode ts) = (p.decode ts, [], []) ∨
      ∃ a b, ts = a ++ m :: b ∧ m ∉ a ∧ find (p.text m) (p.decode ts) 0 = some (p.decode a).length ∧
        partition (p.text m) (p.decode ts) = (p.decode a, p.text m, p.decode b) := by
  cases hf : find (p.text m) (p.decode ts) 0 with
  | none =>
    refine .inl ⟨fun hmem => ?_, rfl, by rw [partition, hf]⟩
    obtain ⟨a, b, rfl⟩ := append_of_mem hmem
    refine find_ne_none (i := (p.decode a).length) hm ?_ hf
    rw [decode_append, drop_left, decode_cons]
    exact prefix_append _ _
  | some i =>
    obtain ⟨a, b, rfl, rfl⟩ := h.arises i (find_eq_some hf).2.1
    refine .inr ⟨a, b, rfl, h.notMem mem_cons_self, rfl, ?_⟩
    rw [partition, hf]
    simp [drop_append]

omit [DecidableEq τ] in
theorem text_ne_nil (p : Parser τ) : p.text p.startTokenId ≠ [] ∧ p.text p.endTokenId ≠ [] := by
  rw [p.text_start, p.text_end]
  decide

@[simp] theorem orNone_getD (s : Str) : (orNone s).getD [] = s := by
  rw [orNone]
  split_ifs with hs
  · exact hs.symm
  · rfl

theorem splitAtEnd_text (h : p.Once p.endTokenId ts) (he : p.endTokenId ∈ ts) (first : Nat) :
    ∃ a b, ts = a ++ p.endTokenId :: b ∧ p.endTokenId ∉ a ∧
      parts (splitAtEnd (p.decode ts) first) = ((p.decode a).drop first, p.decode b) := by
  obtain ⟨hnot, -⟩ | ⟨a, b, rfl, ha, hf, -⟩ := search_text h p.text_ne_nil.2
  · exact absurd he hnot
  · rw [p.text_end] at hf
    have hslice : ∀ n l : Nat, sliceIndex (n : Int) l = n := fun n l => if_neg (by omega)
    have hindex : index endToken (p.decode (a ++ p.endTokenId :: b)) = ((p.decode a).length : Int) := by
      rw [index, hf]
      rfl
    refine ⟨a, b, rfl, ha, ?_⟩
    rw [splitAtEnd, hindex, ← Int.natCast_add, hslice, hslice, hslice]
    simp [parts, p.text_end, drop_append]

theorem parts_thinking (h : p.Once p.endTokenId (previous ++ ts)) :
    parts (p.thinking previous ts) = p.parse previous ts := by
  rw [thinking]
  split_ifs with hm hp
  · obtain ⟨a, b, rfl, ha, hsplit⟩ := splitAtEnd_text (h.part (suffix_append _ _).isInfix p.text_ne_nil.2) hm 0
    rw [parse_of_mem (h.notMem hm) ha]
    exact hsplit
  · rw [parse, if_pos hp]
    rfl
  · rw [parse_of_notMem hp hm]
    rfl

theorem streaming_of_not_start (h : p.Once p.endTokenId (previous ++ ts)) (hs : p.startTokenId ∉ ts) :
    parts (p.extractReasoningStreaming previous ts) = p.parse previous ts := by
  have hstart : ts ≠ [p.startTokenId] := fun heq => hs (heq ▸ mem_cons_self)
  by_cases hend : ts = [p.endTokenId]
  · have hparse : p.parse previous [p.endTokenId] = ([], []) :=
      parse_of_mem (h.notMem (hend ▸ mem_cons_self)) not_mem_nil
    rw [hend, hparse]
    simp [extractReasoningStreaming, baseStreaming, parts]
  · rw [← parts_thinking h]
    by_cases hp : p.startTokenId ∈ previous <;> simp [extractReasoningStreaming, baseStreaming, hs, hp, hstart, hend]

theorem streamed_of_not_start {deltas : List (List τ)} (h : p.Once p.endTokenId (previous ++ deltas.flatten))
    (hs : p.startTokenId ∉ deltas.flatten) : p.streamed previous deltas = p.parse previous deltas.flatten := by
  induction deltas generalizing previous with
  | nil => simp [streamed, parse, decode]
  | cons delta deltas ih =>
    rw [flatten_cons, mem_append, not_or] at hs
    rw [flatten_cons, ← append_assoc] at h
    rw [streamed, streaming_of_not_start (h.part (prefix_append _ _).isInfix p.text_ne_nil.2) hs.1,
      ih h hs.2, flatten_cons, parse_append]

/-! ### The start token -/

theorem Marked.cases {out : List τ} (h : p.Marked out) :
    p.startTokenId ∉ out ∧ withoutStart (p.decode out) = p.decode out ∨
      ∃ ts, out = p.startTokenId :: ts ∧ p.startTokenId ∉ ts ∧ withoutStart (p.decode out) = p.decode ts := by
  have honce : p.Once p.startTokenId out := ⟨h.startArises, by
    cases out with
    | nil => exact Nat.zero_le 1
    | cons t ts =>
      rw [count_cons, count_eq_zero.2 (show p.startTokenId ∉ ts from h.startFirst)]
      split <;> simp⟩
  have hsearch := search_text honce p.text_ne_nil.1
  rw [p.text_start] at hsearch
  obtain ⟨hnot, -, heq⟩ | ⟨a, ts, rfl, -, -, heq⟩ := hsearch
  · exact .inl ⟨hnot, by rw [withoutStart, heq, if_pos rfl]⟩
  · cases a with
    | nil => exact .inr ⟨ts, rfl, h.startFirst, by rw [withoutStart, heq, if_neg (show startToken ≠ [] by decide)]⟩
    | cons t a => exact absurd (mem_append_right a mem_cons_self) h.startFirst

theorem parts_extractReasoning {s : Str} (h : p.Once p.endTokenId ts) (hs : withoutStart s = p.decode ts) :
    parts (extractReasoning s) = p.parse [] ts := by
  have hsearch := search_text h p.text_ne_nil.2
  rw [p.text_end] at hsearch
  rw [extractReasoning, hs]
  obtain ⟨hnot, hf, -⟩ | ⟨a, b, rfl, ha, hf, hcut⟩ := hsearch
  · rw [if_pos hf, parse_of_notMem not_mem_nil hnot]
    rfl
  · rw [hf, hcut, parse_of_mem not_mem_nil ha]
    simp [parts]

omit [DecidableEq τ] in
theorem start_ne_end (p : Parser τ) : p.startTokenId ≠ p.endTokenId := fun h => by
  have := p.text_start
  rw [h, p.text_end] at this
  exact absurd this (by decide)

/-- The delta with the start token keeps the text of it unless it is that token alone or has the end token too. -/
theorem streaming_start (h : p.Once p.endTokenId (p.startTokenId :: ts)) :
    parts (p.extractReasoningStreaming [] (p.startTokenId :: ts)) =
      ((if ts = [] ∨ p.endTokenId ∈ ts then [] else startToken) ++ (p.parse [] ts).1, (p.parse [] ts).2) := by
  have hne := p.start_ne_end
  by_cases hm : p.endTokenId ∈ ts
  · have hindex : index startToken (p.decode (p.startTokenId :: ts)) = 0 := by
      rw [index, decode_cons, p.text_start, find_append_left (by decide)]
      rfl
    obtain ⟨a, b, heq, ha, hsplit⟩ := splitAtEnd_text h (mem_cons_of_mem _ hm) startToken.length
    have hret : p.extractReasoningStreaming [] (p.startTokenId :: ts) =
        some (splitAtEnd (p.decode (p.startTokenId :: ts)) startToken.length) := by
      simp [extractReasoningStreaming, baseStreaming, ne_nil_of_mem hm, hm, hne, hindex, -decode_cons]
    cases a with
    | nil => exact absurd (cons.inj heq).1 hne
    | cons t a =>
      obtain ⟨rfl, rfl⟩ := cons.inj (heq.trans cons_append)
      rw [hret, hsplit, parse_of_mem not_mem_nil fun hmem => ha (mem_cons_of_mem _ hmem)]
      simp [p.text_start]
  · rw [parse_of_notMem not_mem_nil hm]
    rcases eq_or_ne ts [] with rfl | hts
    · simp [extractReasoningStreaming, baseStreaming, parts, decode]
    · simp [extractReasoningStreaming, baseStreaming, parts, hts, hm, hne, hne.symm, p.text_start]

/-- The deltas add up to the whole text exactly if a start token comes alone or together with the
end token. -/
theorem streamed_eq_iff {deltas : List (List τ)} (h : p.Marked deltas.flatten) (hne : ∀ d ∈ deltas, d ≠ []) :
    p.streamed [] deltas = parts (extractReasoning (p.decode deltas.flatten)) ↔
      ∀ d ∈ deltas, p.startTokenId ∈ d → d = [p.startTokenId] ∨ p.endTokenId ∈ d := by
  obtain ⟨hs, hout⟩ | ⟨ts, heq, hs, hout⟩ := h.cases
  · rw [streamed_of_not_start h.endOnce hs, parts_extractReasoning h.endOnce hout]
    exact iff_of_true rfl fun d hd hstart => absurd (mem_flatten_of_mem hd hstart) hs
  · cases deltas with
    | nil => cases heq
    | cons d ds =>
      obtain ⟨t, us, rfl⟩ := exists_cons_of_ne_nil (hne d mem_cons_self)
      obtain ⟨rfl, rfl⟩ : t = p.startTokenId ∧ us ++ ds.flatten = ts := cons.inj heq
      have hall : p.Once p.endTokenId (p.startTokenId :: us ++ ds.flatten) := h.endOnce
      rw [mem_append, not_or] at hs
      have hbody : p.Once p.endTokenId (us ++ ds.flatten) := hall.part (suffix_cons _ _).isInfix p.text_ne_nil.2
      have hend : p.endTokenId ∈ p.startTokenId :: us ↔ p.endTokenId ∈ us := by simp [p.start_ne_end.symm]
      have hparse : p.parse (p.startTokenId :: us) ds.flatten = p.parse us ds.flatten := by simp only [parse, hend]
      rw [streamed, streaming_start (hall.part (prefix_append _ _).isInfix p.text_ne_nil.2), nil_append,
        streamed_of_not_start hall hs.2, hparse,
        parts_extractReasoning hbody hout, parse_append, nil_append]
      -- later deltas have no start token
      have hcond : (∀ d ∈ (p.startTokenId :: us) :: ds, p.startTokenId ∈ d → d = [p.startTokenId] ∨ p.endTokenId ∈ d) ↔
          us = [] ∨ p.endTokenId ∈ us := by
        rw [forall_mem_cons, and_iff_left fun d hd hstart => absurd (mem_flatten_of_mem hd hstart) hs.2, hend]
        simp
      rw [hcond]
      split_ifs with hc
      · simp [hc]
      · refine iff_of_false (fun heq => ?_) hc
        have hlen := congrArg (fun x => x.1.length) heq
        simp only [append_assoc, length_append, Nat.add_eq_right] at hlen
        exact absurd hlen (by decide)

omit [DecidableEq τ] in
theorem arises_of_lt (hm : p.text m ≠ [])
    (h : ∀ i < (p.decode ts).length, p.text m <+: (p.decode ts).drop i →
      ∃ n < ts.length, ts.drop n = m :: ts.drop (n + 1) ∧ (p.decode (ts.take n)).length = i) :
    p.Arises m ts := fun i hi => by
  have hlt : i < (p.decode ts).length := Nat.lt_of_not_le fun hle => hm (prefix_nil.1 (drop_eq_nil_of_le hle ▸ hi))
  obtain ⟨n, -, hn, hlen⟩ := h i hlt hi
  exact ⟨ts.take n, ts.drop (n + 1), by rw [← hn, take_append_drop], hlen⟩

/-- The markers and one more token. -/
def sample : Parser (Fin 3) where
  startTokenId := 0
  endTokenId := 1
  text t := if t = 0 then startToken else if t = 1 then endToken else ['a']
  text_start := rfl
  text_end := rfl

theorem marked_sample : sample.Marked [0, 2, 1, 2] where
  startFirst := by decide
  startArises := arises_of_lt (by decide +kernel) (by decide +kernel)
  endOnce := ⟨arises_of_lt (by decide +kernel) (by decide +kernel), by decide⟩

theorem streamed_ne_sample : sample.Marked [0, 2, 1, 2] ∧
    sample.streamed [] [[0, 2], [1, 2]] ≠ parts (extractReasoning (sample.decode [0, 2, 1, 2])) :=
  ⟨marked_sample, by decide +kernel⟩

theorem streamed_eq_sample : sample.streamed []
      [[0], [2, 1, 2]] = parts (extractReasoning (sample.decode [0, 2, 1, 2])) :=
  (streamed_eq_iff (show sample.Marked [[0], [2, 1, 2]].flatten from marked_sample) (by decide)).2 (by decide)

end Parser

end Xmix.Reasoning
