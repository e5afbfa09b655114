import Xmix.Dsl.Parser

/-!
# The clauses of a statement

What a chain `m.<verb>(..).layers(..).submodule(..).cond(..)` says, apart from where it stands in the
file and how a layer tuple is spelled (`chainForm`), and the same read back from a parsed statement
(`Statement.form`). The loops of the parser overwrite what an earlier link of the same kind said, so
the two agree exactly on chains that repeat nothing.
-/

namespace Xmix.Dsl

open Xmix.Except List Option
open PyStr

/-! ### Expressions without positions -/

inductive Text where
  | name (id : Str)
  | attribute (value : Text) (attr : Str)
  | call (func : Text) (args : List Text) (keywords : List (Option Str × Text))
  | subscript (value slice : Text)
  | slice (lower upper step : Option Text)
  | int (n : Nat)
  | str (s : Str)
  | list (elts : List Text)
  | other (seg : Str)

mutual

def Expr.text : Expr → Text
  | .name _ id => .name id.name
  | .attribute _ value attr => .attribute value.text attr.name
  | .call _ func args kws => .call func.text (texts args) (kwTexts kws)
  | .subscript _ value slice => .subscript value.text slice.text
  | .slice _ lower upper step => .slice (optText lower) (optText upper) (optText step)
  | .int _ n => .int n
  | .str _ s => .str s
  | .list _ elts => .list (texts elts)
  | .tuple p _ | .star p _ | .other p => .other p.seg

def texts : List Expr → List Text
  | [] => []
  | e :: es => e.text :: texts es

def kwTexts : List (Option Ident × Expr) → List (Option Str × Text)
  | [] => []
  | (name, e) :: kws => (name.map Ident.name, e.text) :: kwTexts kws

def optText : Option Expr → Option Text
  | none => none
  | some e => some e.text

end

theorem texts_eq_map (es : List Expr) : texts es = es.map Expr.text := by
  induction es with
  | nil => rfl
  | cons e es ih => rw [texts, ih, map_cons]

theorem kwTexts_eq_map (kws : List (Option Ident × Expr)) :
    kwTexts kws = kws.map fun kw => (kw.1.map Ident.name, kw.2.text) := by
  induction kws with
  | nil => rfl
  | cons kw kws ih => rw [kwTexts, ih, map_cons]

def Dotted.text (d : Dotted) : Text := d.attrs.foldl (fun t a => .attribute t a.name) (.name d.head.name)

theorem text_of_dottedName {e : Expr} {d : Dotted} (h : dottedName e = some d) : e.text = d.text := by
  fun_induction dottedName e generalizing d with
  | case1 p id => cases h; rfl
  | case2 p value attr ih =>
    obtain ⟨d', hd', rfl⟩ := map_eq_some_iff.1 h
    rw [Expr.text, ih hd', Dotted.text, Dotted.text, foldl_append]
    rfl
  | case3 => cases h

/-! ### What a chain says -/

inductive ClauseKind where
  | layers
  | submodule
  | cond
deriving DecidableEq

def clauseKind (attr : Ident) : Option ClauseKind :=
  if attr.name = "layer".toList ∨ attr.name = "layers".toList then some .layers
  else if attr.name = "submodule".toList then some .submodule
  else if attr.name = "cond".toList then some .cond
  else none

def ofKind (k : ClauseKind) (links : List (Ident × Expr)) : List (Ident × Expr) :=
  links.filter fun l => clauseKind l.1 = some k

inductive LinkForm where
  | layers (spec : LayerSpec)
  | args (args : List Text) (keywords : List (Option Str × Text))

def layerForm (link : Expr) : Option LinkForm :=
  match expectLayers [] link [] with
  | .ok spec => some (.layers spec)
  | .error _ => none

def argsForm : Expr → LinkForm
  | .call _ _ args kws => .args (texts args) (kwTexts kws)
  | e => .args [e.text] []

def linkForm (l : Ident × Expr) : LinkForm :=
  if clauseKind l.1 = some .layers then (layerForm l.2).getD (argsForm l.2) else argsForm l.2

structure CondForm where
  base : Text
  verb : Str
  args : List Text
  keywords : Set (Option Str × Text)
  layers : List LinkForm
  submodules : List LinkForm

def condChain : Expr → Expr × List (Ident × Expr)
  | .call _ _ [e] _ => flattenChain e
  | e => (e, [])

def callArgs : Expr → List Expr
  | .call _ _ args _ => args
  | _ => []

def callKeywords : Expr → List (Option Ident × Expr)
  | .call _ _ _ kws => kws
  | _ => []

def condForm (link : Expr) : Option CondForm :=
  match condChain link with
  | (base, (verb, call) :: tail) =>
    some ⟨base.text, verb.name, texts (callArgs call), {kw | kw ∈ kwTexts (callKeywords call)},
      (ofKind .layers tail).map linkForm, (ofKind .submodule tail).map linkForm⟩
  | _ => none

structure ChainForm where
  base : Text
  verb : Str
  args : List Text
  layers : List LinkForm
  submodules : List LinkForm
  conds : List (Option CondForm)

def chainForm (call : Expr) : Option ChainForm :=
  match flattenChain call with
  | (base, (verb, opCall) :: links) =>
    some ⟨base.text, verb.name, texts (callArgs opCall), (ofKind .layers links).map linkForm,
      (ofKind .submodule links).map linkForm, (ofKind .cond links).map fun l => condForm l.2⟩
  | _ => none

/-! ### What a statement says -/

def OpKind.name : OpKind → Str
  | .write => "write".toList
  | .read => "read".toList

def submoduleForm (sub : Submodule) : LinkForm := .args [.str sub.name] []

def Gate.keywords (g : Gate) : Set (Option Str × Text) :=
  {kw | (kw.1 = some "via".toList ∧ ∃ fn, g.plugFn = some fn ∧ kw.2 = .str fn) ∨
    (kw.1 = some "kind".toList ∧ ∃ kind, g.plugKind = some kind ∧ kw.2 = .str kind)}

def CondClause.form : CondClause → CondForm
  | .probe op compare weights threshold layers sub _ =>
    ⟨.name op.name, compare.name, [.name weights.name, .name threshold.name], ∅,
      [.layers (.only layers)], [submoduleForm sub]⟩
  | .gates inst _ gate layers sub _ =>
    ⟨inst.text, "gates".toList, [.str gate.buffer], gate.keywords, [.layers (.only layers)], [submoduleForm sub]⟩
  | .model inst _ gate _ =>
    ⟨inst.text, "gates".toList, [.str gate.buffer], gate.keywords, [.args [.str "model".toList] []], []⟩

def opText (op : Op) : Steerer → Text
  | .synth args => .attribute (.call (.name op.name) (args.map fun a => .name a.name) []) op.spec.method
  | .inst expr => .attribute expr.text op.spec.method

def Statement.form (stmt : Statement) : ChainForm :=
  ⟨.name ['m'], stmt.op.name, [opText stmt.opName stmt.steerer], [.layers stmt.layers], [submoduleForm stmt.submodule],
    (stmt.cond.map fun c => some c.form).toList⟩

/-! ### Chains that repeat nothing -/

def clauseLinks (call : Expr) : List (Ident × Expr) := (flattenChain call).2.tail

def condLinks (link : Expr) : List (Ident × Expr) := (condChain link).2.tail

def gateKeywords (link : Expr) : List (Option Str × Text) :=
  ((condChain link).2.head?.map fun l => kwTexts (callKeywords l.2)).getD []

/-- The clauses that a statement and its condition must have, and how often. -/
structure OneOfEach (call : Expr) : Prop where
  layers : (ofKind .layers (clauseLinks call)).length = 1
  submodule : (ofKind .submodule (clauseLinks call)).length = 1
  cond : (ofKind .cond (clauseLinks call)).length ≤ 1
  condLayers : ∀ l ∈ ofKind .cond (clauseLinks call), (ofKind .layers (condLinks l.2)).length = 1
  condSubmodule : ∀ l ∈ ofKind .cond (clauseLinks call), (ofKind .submodule (condLinks l.2)).length ≤ 1

structure NoRepeats (call : Expr) : Prop where
  clauses : ∀ k, (ofKind k (clauseLinks call)).length ≤ 1
  condClauses : ∀ l ∈ ofKind .cond (clauseLinks call), ∀ k, (ofKind k (condLinks l.2)).length ≤ 1
  keywords : ∀ l ∈ ofKind .cond (clauseLinks call), ∀ a ∈ gateKeywords l.2, ∀ b ∈ gateKeywords l.2, a.1 = b.1 → a = b

/-! ### The arguments of one link -/

section Link
variable {path what : Str} {link : Expr}

theorem noKeywords_eq_ok {args : List Expr} (h : noKeywords path link what = .ok args) :
    ∃ p func, link = .call p func args [] := by
  unfold noKeywords at h
  split at h
  · next p func args' kws =>
    split at h
    · next hempty =>
      cases h
      exact ⟨p, func, by rw [isEmpty_iff.1 hempty]⟩
    · exact absurd h fail_ne_ok
  · exact absurd h fail_ne_ok

theorem layersFromSlice_any {p : Pos} {slice : Expr} {ls : LayerList} (h : layersFromSlice path p slice what = .ok ls) :
    layersFromSlice [] p slice [] = .ok ls := by
  unfold layersFromSlice at h ⊢
  split at h
  · split at h
    · split at h
      · exact absurd h fail_ne_ok
      · split at h
        · exact absurd h fail_ne_ok
        · next hle =>
          rw [if_neg hle]
          exact h
    · exact absurd h fail_ne_ok
  · exact absurd h fail_ne_ok

theorem expectIntList_any {ls : LayerList} (h : expectIntList path link what = .ok ls) :
    expectIntList [] link [] = .ok ls := by
  unfold expectIntList at h ⊢
  obtain ⟨args, hargs, h⟩ := bind_eq_ok.1 h
  obtain ⟨p, func, rfl⟩ := noKeywords_eq_ok hargs
  refine bind_eq_ok.2 ⟨args, rfl, ?_⟩
  split at h
  · next q elts =>
    obtain ⟨items, hitems, h⟩ := bind_eq_ok.1 h
    refine bind_eq_ok.2 ⟨items, mapM_eq_ok.2 ?_, ?_⟩
    · refine (mapM_eq_ok.1 hitems).imp fun el n hel => ?_
      split at hel
      · exact hel
      · exact absurd hel fail_ne_ok
    · split at h
      · exact absurd h fail_ne_ok
      · next hne =>
        rw [dif_neg hne]
        exact h
  · exact absurd h fail_ne_ok

theorem layerForm_of_expectLayers {spec : LayerSpec} (h : expectLayers path link what = .ok spec) :
    layerForm link = some (.layers spec) := by
  have hsame : expectLayers [] link [] = .ok spec := by
    unfold expectLayers at h ⊢
    split at h
    · obtain ⟨ls, hls, h⟩ := bind_eq_ok.1 h
      exact bind_eq_ok.2 ⟨ls, layersFromSlice_any hls, h⟩
    · obtain ⟨args, hargs, h⟩ := bind_eq_ok.1 h
      obtain ⟨p, func, rfl⟩ := noKeywords_eq_ok hargs
      refine bind_eq_ok.2 ⟨args, rfl, ?_⟩
      split at h
      · split at h
        · next hall => rw [if_pos hall]; exact h
        · exact absurd h fail_ne_ok
      · obtain ⟨ls, hls, h⟩ := bind_eq_ok.1 h
        exact bind_eq_ok.2 ⟨ls, expectIntList_any hls, h⟩
      · exact absurd h fail_ne_ok
  rw [layerForm, hsame]

theorem argsForm_of_validateSubmodule {sub : Submodule} (h : validateSubmodule path link = .ok sub) :
    argsForm link = submoduleForm sub := by
  unfold validateSubmodule expectStr at h
  obtain ⟨name, hname, h⟩ := bind_eq_ok.1 h
  obtain ⟨args, hargs, hname⟩ := bind_eq_ok.1 hname
  obtain ⟨p, func, rfl⟩ := noKeywords_eq_ok hargs
  split at hname
  · cases hname
    split at h
    · next hfind =>
      cases h
      have hsub : sub.name = name := by simpa using find?_some hfind
      rw [submoduleForm, hsub]
      rfl
    · exact absurd h fail_ne_ok
  · exact absurd hname fail_ne_ok

theorem texts_of_expectNameArgs {call : Expr} {ids : List Ident} (h : expectNameArgs path call what = .ok ids) :
    ∃ p func args, call = .call p func args [] ∧ texts args = ids.map fun a => .name a.name := by
  unfold expectNameArgs at h
  obtain ⟨args, hargs, h⟩ := bind_eq_ok.1 h
  obtain ⟨p, func, rfl⟩ := noKeywords_eq_ok hargs
  refine ⟨p, func, args, rfl, ?_⟩
  have hids := mapM_eq_ok.1 h
  clear * - hids
  rw [texts_eq_map]
  induction hids with
  | nil => rfl
  | cons harg _ ih =>
    rw [map_cons, map_cons, ih]
    split at harg
    · cases harg; rw [Expr.text]
    · exact absurd harg fail_ne_ok

theorem texts_of_parseOpArg {cm : ClassMap} {op : Op}
    {steerer : Steerer} (h : parseOpArg path link cm = .ok (op, steerer)) :
    texts (callArgs link) = [opText op steerer] := by
  rcases parseOpArg_eq_ok h with ⟨p, q, n, cls, args, kws, method, ids, hargs, hids, hname, -, hmethod, rfl⟩ |
    ⟨p, value, method, inst, cls, hargs, hinst, -, -, hmethod, rfl⟩
  · obtain ⟨p, func, rfl⟩ := noKeywords_eq_ok hargs
    obtain ⟨p', func', args', hcall, htexts⟩ := texts_of_expectNameArgs hids
    cases hcall
    simp [callArgs, texts, Expr.text, kwTexts, htexts, ← hname, hmethod, opText]
  · obtain ⟨p, func, rfl⟩ := noKeywords_eq_ok hargs
    simp [callArgs, texts, Expr.text, text_of_dottedName hinst, hmethod, opText]

end Link

/-! ### The links of one kind -/

section Kinds
variable {k : ClauseKind} {links : List (Ident × Expr)} {l : Ident × Expr}

theorem mem_ofKind : l ∈ ofKind k links ↔ l ∈ links ∧ clauseKind l.1 = some k := by
  simp [ofKind]

theorem ofKind_eq_singleton (hone : (ofKind k links).length ≤ 1) (hl : l ∈ links) (hk : clauseKind l.1 = some k) :
    ofKind k links = [l] := by
  have hmem : l ∈ ofKind k links := mem_ofKind.2 ⟨hl, hk⟩
  obtain ⟨x, hx⟩ : ∃ x, ofKind k links = [x] := by
    rw [← length_eq_one_iff]
    have := length_pos_of_mem hmem
    omega
  rw [hx] at hmem ⊢
  rw [mem_singleton.1 hmem]

theorem clauseKind_layer {attr : Ident} (h : attr.name = "layer".toList) : clauseKind attr = some .layers := by
  rw [clauseKind, if_pos (.inl h)]

theorem clauseKind_submodule {attr : Ident} (h : attr.name = "submodule".toList) :
    clauseKind attr = some .submodule := by
  rw [clauseKind, if_neg (by rw [h]; decide), if_pos h]

theorem linkForm_layers (hk : clauseKind l.1 = some .layers)
    {spec : LayerSpec} (h : layerForm l.2 = some (.layers spec)) :
    linkForm l = .layers spec := by
  rw [linkForm, if_pos hk, h]
  rfl

theorem linkForm_submodule (hk : clauseKind l.1 = some .submodule) : linkForm l = argsForm l.2 := by
  rw [linkForm, if_neg (by rw [hk]; decide)]

section Slot
variable {σ α β ε : Type} {f : σ → Ident × Expr → Except ε σ} {get : σ → Option α} {s t : σ}

theorem slot_form {form : α → β} {g : Ident × Expr → β} (h : links.foldlM f s = .ok t) (hs : get s = none)
    (hone : (ofKind k links).length ≤ 1) (hstep : ∀ t t', ∀ l ∈ links, f t l = .ok t' →
      get t' = get t ∨ ∃ a, get t' = some a ∧ clauseKind l.1 = some k ∧ g l = form a) (a : α) (ha : get t = some a) :
    (ofKind k links).map g = [form a] := by
  refine foldlM_inv (fun t => ∀ a, get t = some a → (ofKind k links).map g = [form a]) ?_ (by simp [hs]) h a ha
  intro t l t' hl ht hf a ha
  rcases hstep t t' l hl hf with hkeep | ⟨b, hb, hk, hform⟩
  · exact ht a (hkeep ▸ ha)
  · cases hb.symm.trans ha
    rw [ofKind_eq_singleton hone hl hk, map_singleton, hform]

theorem slot_unused {P : Ident × Expr → α → Prop} (h : links.foldlM f s = .ok t)
    (hstep : ∀ t t' l, f t l = .ok t' → (get t' = get t ∧ clauseKind l.1 ≠ some k) ∨
      ∃ a, get t' = some a ∧ P l a) (ht : get t = none) : ofKind k links = [] := by
  refine eq_nil_iff_forall_not_mem.2 fun l hl => ?_
  obtain ⟨hl, hk⟩ := mem_ofKind.1 hl
  have hset : get t ≠ none := by
    refine foldlM_reaches (fun t => get t ≠ none) (fun t l t' ht hf => ?_) hl (fun t t' hf => ?_) h
    · rcases hstep t t' l hf with ⟨hkeep, -⟩ | ⟨a, ha, -⟩
      · exact hkeep ▸ ht
      · exact ne_none_iff_exists'.2 ⟨a, ha⟩
    · rcases hstep t t' l hf with ⟨-, hk'⟩ | ⟨a, ha, -⟩
      · exact absurd hk hk'
      · exact ne_none_iff_exists'.2 ⟨a, ha⟩
  exact hset ht

end Slot

end Kinds

/-! ### The tail of a condition -/

section CondTail
variable {path : Str} {sentinel : Bool} {t t' : CondTail} {l : Ident × Expr}

theorem condTailLink_eq_ok (h : condTailLink path sentinel t l = .ok t') :
    (clauseKind l.1 = some .layers ∧ linkForm l = .args [.str "model".toList] [] ∧
      t' = { t with modelLevel := true } ∧ sentinel = true) ∨
      (clauseKind l.1 = some .layers ∧ ∃ ls, linkForm l = .layers (.only ls) ∧ t' = { t with layers := some ls }) ∨
      (clauseKind l.1 = some .submodule ∧ ∃ sub, linkForm l = submoduleForm sub ∧
        t' = { t with submodule := some sub }) := by
  obtain ⟨attr, call⟩ := l
  unfold condTailLink at h
  dsimp only at h
  split at h
  · next hattr =>
    have hk := clauseKind_layer hattr
    split at h
    · next hmodel =>
      cases h
      rw [Bool.and_eq_true] at hmodel
      refine .inl ⟨hk, ?_, rfl, hmodel.1⟩
      have hcall := hmodel.2
      unfold isModelSentinel at hcall
      split at hcall
      · next q func p s =>
        have hs : s = "model".toList := of_decide_eq_true hcall
        subst hs
        have hform : layerForm (.call q func [.str p "model".toList] []) = none := by
          rw [layerForm]
          rfl
        rw [linkForm, if_pos hk, hform]
        rfl
      · cases hcall
    · obtain ⟨spec, hspec, h⟩ := bind_eq_ok.1 h
      split at h
      · exact absurd h fail_ne_ok
      · next ls =>
        cases h
        exact .inr (.inl ⟨hk, ls, linkForm_layers hk (layerForm_of_expectLayers hspec), rfl⟩)
  · split at h
    · next hattr =>
      obtain ⟨sub, hsub, h⟩ := bind_eq_ok.1 h
      cases h
      have hk := clauseKind_submodule hattr
      exact .inr (.inr ⟨hk, sub, (linkForm_submodule hk).trans (argsForm_of_validateSubmodule hsub), rfl⟩)
    · exact absurd h fail_ne_ok

theorem condTailLink_submodule (h : condTailLink path sentinel t l = .ok t') :
    (t'.submodule = t.submodule ∧ clauseKind l.1 ≠ some .submodule) ∨
      ∃ sub, t'.submodule = some sub ∧ clauseKind l.1 = some .submodule ∧ linkForm l = submoduleForm sub := by
  rcases condTailLink_eq_ok h with ⟨hk, -, rfl, -⟩ | ⟨hk, ls, -, rfl⟩ | ⟨hk, sub, hform, rfl⟩
  · exact .inl ⟨rfl, by rw [hk]; decide⟩
  · exact .inl ⟨rfl, by rw [hk]; decide⟩
  · exact .inr ⟨sub, rfl, hk, hform⟩

structure TailForm (tail : List (Ident × Expr)) (t : CondTail) : Prop where
  model : t.modelLevel = true → (ofKind .layers tail).map linkForm = [.args [.str "model".toList] []]
  layers : ∀ ls, t.layers = some ls → (ofKind .layers tail).map linkForm = [.layers (.only ls)]
  submodule : ∀ sub, t.submodule = some sub → (ofKind .submodule tail).map linkForm = [submoduleForm sub]
  noSubmodule : t.submodule = none → ofKind .submodule tail = []

theorem tailForm {tail : List (Ident × Expr)} (h : tail.foldlM (condTailLink path sentinel) ⟨none, none, false⟩ = .ok t)
    (hone : ∀ k, (ofKind k tail).length ≤ 1) : TailForm tail t := by
  refine ⟨?_, ?_, ?_, ?_⟩
  · refine foldlM_inv (fun t : CondTail => t.modelLevel = true → (ofKind .layers tail).map linkForm =
      [.args [.str "model".toList] []]) ?_ (fun hm => by cases hm) h
    intro t l t' hl ht hstep
    rcases condTailLink_eq_ok hstep with ⟨hk, hform, rfl, -⟩ | ⟨-, ls, -, rfl⟩ | ⟨-, sub, -, rfl⟩
    · intro _
      rw [ofKind_eq_singleton (hone _) hl hk, map_singleton, hform]
    · exact ht
    · exact ht
  · refine slot_form h rfl (hone _) fun t t' l _ hstep => ?_
    rcases condTailLink_eq_ok hstep with ⟨-, -, rfl, -⟩ | ⟨hk, ls, hform, rfl⟩ | ⟨-, sub, -, rfl⟩
    · exact .inl rfl
    · exact .inr ⟨ls, rfl, hk, hform⟩
    · exact .inl rfl
  · exact slot_form h rfl (hone _) fun t t' l _ hstep => (condTailLink_submodule hstep).imp_left And.left
  · exact slot_unused h fun t t' l hstep => condTailLink_submodule hstep

theorem no_cond_in_tail {tail : List (Ident × Expr)}
    {s : CondTail} (h : tail.foldlM (condTailLink path sentinel) s = .ok t) :
    ofKind .cond tail = [] := by
  refine eq_nil_iff_forall_not_mem.2 fun l hl => ?_
  obtain ⟨hl, hk⟩ := mem_ofKind.1 hl
  obtain ⟨u, u', hstep⟩ := foldlM_mem h hl
  rcases condTailLink_eq_ok hstep with ⟨hk', -⟩ | ⟨hk', -⟩ | ⟨hk', -⟩ <;> cases hk.symm.trans hk'

end CondTail

/-! ### Conditions -/

section Cond
variable {path : Str} {link : Expr} {cm : ClassMap} {c : CondClause}

theorem gateKeyword_eq_ok {p : Pos} {g g' : Gate} {kw : Option Ident × Expr} (h : gateKeyword path p g kw = .ok g') :
    ∃ name q s, kw = (some name, .str q s) ∧
      ((name.name = "via".toList ∧ g' = { g with plugFn := some s }) ∨
        (name.name = "kind".toList ∧ g' = { g with plugKind := some s })) := by
  obtain ⟨name, value⟩ := kw
  unfold gateKeyword at h
  split at h
  · next name q s heq =>
    cases heq
    refine ⟨name, q, s, rfl, ?_⟩
    split at h
    · next hvia => cases h; exact .inl ⟨hvia, rfl⟩
    · split at h
      · next hkind => cases h; exact .inr ⟨hkind, rfl⟩
      · exact absurd h fail_ne_ok
  · exact absurd h fail_ne_ok
  · exact absurd h fail_ne_ok

theorem keywords_of_foldlM {p : Pos} {buffer : Str} {kws : List (Option Ident × Expr)} {g : Gate}
    (h : kws.foldlM (gateKeyword path p) ⟨buffer, none, none⟩ = .ok g)
    (hone : ∀ a ∈ kwTexts kws, ∀ b ∈ kwTexts kws, a.1 = b.1 → a = b) :
    g.buffer = buffer ∧ {kw | kw ∈ kwTexts kws} = g.keywords := by
  have hbuffer : g.buffer = buffer := by
    refine foldlM_inv (fun g : Gate => g.buffer = buffer) ?_ rfl h
    intro g kw g' _ hg hstep
    obtain ⟨_, _, _, -, ⟨-, rfl⟩ | ⟨-, rfl⟩⟩ := gateKeyword_eq_ok hstep <;> exact hg
  -- what the loop kept was given
  have hgiven : g.keywords ⊆ {kw | kw ∈ kwTexts kws} := by
    refine foldlM_inv (fun g : Gate => g.keywords ⊆ {kw | kw ∈ kwTexts kws}) ?_ ?_ h
    · intro g kw g' hkw hg hstep
      obtain ⟨name, q, s, rfl, hcase⟩ := gateKeyword_eq_ok hstep
      have hmem : (some name.name, Text.str s) ∈ kwTexts kws := by
        rw [kwTexts_eq_map]
        refine mem_map.2 ⟨_, hkw, ?_⟩
        rw [Expr.text]
        rfl
      rcases hcase with ⟨hname, rfl⟩ | ⟨hname, rfl⟩
      · rintro ⟨k, v⟩ (⟨rfl, fn, hfn, rfl⟩ | hkind)
        · cases hfn
          rw [hname] at hmem
          exact hmem
        · exact hg (.inr hkind)
      · rintro ⟨k, v⟩ (hvia | ⟨rfl, fn, hfn, rfl⟩)
        · exact hg (.inl hvia)
        · cases hfn
          rw [hname] at hmem
          exact hmem
    · rintro ⟨k, v⟩ (⟨-, fn, hfn, -⟩ | ⟨-, fn, hfn, -⟩) <;> cases hfn
  -- and every keyword given is kept, with the one value it has
  have hkept : ∀ kw ∈ kws, ∃ v, (kw.1.map Ident.name, v) ∈ g.keywords := by
    intro kw hkw
    refine foldlM_reaches (fun g : Gate => ∃ v, (kw.1.map Ident.name, v) ∈ g.keywords) ?_ hkw ?_ h
    · rintro g kw' g' ⟨v, hv⟩ hstep
      obtain ⟨name, q, s, rfl, ⟨hname, rfl⟩ | ⟨hname, rfl⟩⟩ := gateKeyword_eq_ok hstep
      · rcases hv with ⟨hk, -⟩ | hv
        · exact ⟨.str s, .inl ⟨hk, s, rfl, rfl⟩⟩
        · exact ⟨v, .inr hv⟩
      · rcases hv with hv | ⟨hk, -⟩
        · exact ⟨v, .inl hv⟩
        · exact ⟨.str s, .inr ⟨hk, s, rfl, rfl⟩⟩
    · intro g g' hstep
      obtain ⟨name, q, s, rfl, ⟨hname, rfl⟩ | ⟨hname, rfl⟩⟩ := gateKeyword_eq_ok hstep
      · exact ⟨.str s, .inl ⟨congrArg some hname, s, rfl, rfl⟩⟩
      · exact ⟨.str s, .inr ⟨congrArg some hname, s, rfl, rfl⟩⟩
  refine ⟨hbuffer, Set.Subset.antisymm ?_ hgiven⟩
  intro kw hkw
  have hkw' : kw ∈ kwTexts kws := hkw
  rw [kwTexts_eq_map] at hkw'
  obtain ⟨kw₀, hmem, rfl⟩ := mem_map.1 hkw'
  obtain ⟨v, hv⟩ := hkept kw₀ hmem
  rw [hone _ hkw _ (hgiven hv) rfl]
  exact hv

theorem form_of_parseGates {call : Expr} {g : Gate} (h : parseGates path call = .ok g)
    (hone : ∀ a ∈ kwTexts (callKeywords call), ∀ b ∈ kwTexts (callKeywords call), a.1 = b.1 → a = b) :
    texts (callArgs call) = [.str g.buffer] ∧ {kw | kw ∈ kwTexts (callKeywords call)} = g.keywords := by
  unfold parseGates at h
  split at h
  · obtain ⟨hbuffer, hkws⟩ := keywords_of_foldlM h hone
    rw [hbuffer]
    exact ⟨by simp only [callArgs, texts, Expr.text], hkws⟩
  · exact absurd h fail_ne_ok
  · cases h

def tailCondForm (base : Text) (first : Ident × Expr) (rest : List (Ident × Expr)) : CondForm :=
  ⟨base, first.1.name, texts (callArgs first.2), {kw | kw ∈ kwTexts (callKeywords first.2)},
    (ofKind .layers rest).map linkForm, (ofKind .submodule rest).map linkForm⟩

section Tail
variable {p : Pos} {first : Ident × Expr} {rest : List (Ident × Expr)}

theorem form_of_parseCondProbe {probe : ProbeOp} (h : parseCondProbe path p probe first rest = .ok c)
    (hone : ∀ k, (ofKind k rest).length ≤ 1) : tailCondForm (.name probe.name) first rest = c.form := by
  obtain ⟨weights, threshold, tail, layers, sub, hcompare, hids, htail, hl, hs, rfl⟩ := parseCondProbe_eq_ok h
  obtain ⟨q, func, args, hcall, htexts⟩ := texts_of_expectNameArgs hids
  have ht := tailForm htail hone
  simp only [tailCondForm, CondClause.form, hcall, callArgs, callKeywords, kwTexts, htexts, ht.layers layers hl,
    ht.submodule sub hs, hcompare, map_cons, map_nil, not_mem_nil, Set.ofPred_false]

theorem form_of_parseCondInstance {inst : Dotted} {cls : Ident}
    (h : parseCondInstance path p inst first rest cls = .ok c) (hone : ∀ k, (ofKind k rest).length ≤ 1)
    (hkws : ∀ a ∈ kwTexts (callKeywords first.2), ∀ b ∈ kwTexts (callKeywords first.2), a.1 = b.1 →
      a = b) :
    tailCondForm inst.text first rest = c.form := by
  obtain ⟨gate, tail, hverb, hgate, htail, hcase⟩ := parseCondInstance_eq_ok h
  obtain ⟨hargs, hset⟩ := form_of_parseGates hgate hkws
  have ht := tailForm htail hone
  rcases hcase with ⟨_, -, hmodel, hnosub, rfl⟩ | ⟨_, layers, sub, -, hl, hs, rfl⟩
  · simp only [tailCondForm, CondClause.form, hverb, hargs, hset, ht.model hmodel, ht.noSubmodule hnosub, map_nil]
  · simp only [tailCondForm, CondClause.form, hverb, hargs, hset, ht.layers layers hl, ht.submodule sub hs]

end Tail

section
variable (h : parseCond path link cm = .ok c)
include h

theorem condChain_of_parseCond :
    ∃ base first rest, condChain link = (base, first :: rest) ∧
      (∃ sentinel t, rest.foldlM (condTailLink path sentinel) ⟨none, none, false⟩ = .ok t) ∧
      ((∃ p, base.text = .name ProbeOp.linearProbe.name ∧ parseCondProbe path p .linearProbe first rest = .ok c) ∨
        ∃ p inst cls, base.text = inst.text ∧ parseCondInstance path p inst first rest cls = .ok c) := by
  obtain ⟨e, base, first, rest, hargs, hchain, hcase⟩ := parseCond_eq_ok h
  obtain ⟨p, func, rfl⟩ := noKeywords_eq_ok hargs
  refine ⟨base, first, rest, hchain, ?_⟩
  rcases hcase with ⟨q, id, rfl, hid, hp⟩ | ⟨inst, cls, hdot, -, hi⟩
  · obtain ⟨_, _, t, _, _, -, -, ht, -⟩ := parseCondProbe_eq_ok hp
    refine ⟨⟨false, t, ht⟩, .inl ⟨_, ?_, hp⟩⟩
    rw [Expr.text, hid]
  · obtain ⟨_, t, -, -, ht, -⟩ := parseCondInstance_eq_ok hi
    exact ⟨⟨true, t, ht⟩, .inr ⟨_, inst, cls, text_of_dottedName hdot, hi⟩⟩

theorem form_of_parseCond (hone : ∀ k, (ofKind k (condLinks link)).length ≤ 1)
    (hkws : ∀ a ∈ gateKeywords link, ∀ b ∈ gateKeywords link, a.1 = b.1 → a = b) : condForm link = some c.form := by
  obtain ⟨base, first, rest, hchain, -, hcase⟩ := condChain_of_parseCond h
  have hone' : ∀ k, (ofKind k rest).length ≤ 1 := by simpa [condLinks, hchain] using hone
  have hkws' : ∀ a ∈ kwTexts (callKeywords first.2), ∀ b ∈ kwTexts (callKeywords first.2), a.1 = b.1 → a = b := by
    simpa [gateKeywords, hchain] using hkws
  have hform : condForm link = some (tailCondForm base.text first rest) := by
    rw [condForm, hchain]
    rfl
  rw [hform]
  rcases hcase with ⟨p, hbase, hp⟩ | ⟨p, inst, cls, hbase, hi⟩
  · rw [hbase, form_of_parseCondProbe hp hone']
  · rw [hbase, form_of_parseCondInstance hi hone' hkws']

theorem noRepeats_of_condForm {c' : CondClause} (hform : condForm link = some c'.form) :
    (∀ k, (ofKind k (condLinks link)).length ≤ 1) ∧ (ofKind .layers (condLinks link)).length = 1 ∧
      ∀ a ∈ gateKeywords link, ∀ b ∈ gateKeywords link, a.1 = b.1 → a = b := by
  obtain ⟨base, first, rest, hchain, ⟨sentinel, t, htail⟩, -⟩ := condChain_of_parseCond h
  have hlinks : condLinks link = rest := by rw [condLinks, hchain]; rfl
  have hkws : gateKeywords link = kwTexts (callKeywords first.2) := by rw [gateKeywords, hchain]; rfl
  have hform' : tailCondForm base.text first rest = c'.form := by
    rw [condForm, hchain] at hform
    exact some.inj hform
  have hlayers : (ofKind .layers rest).length = c'.form.layers.length := by
    rw [← hform', tailCondForm, length_map]
  have hsub : (ofKind .submodule rest).length = c'.form.submodules.length := by
    rw [← hform', tailCondForm, length_map]
  have hset : {kw | kw ∈ kwTexts (callKeywords first.2)} = c'.form.keywords := by rw [← hform', tailCondForm]
  have hone : (ofKind .layers rest).length = 1 := by
    rw [hlayers]
    cases c' <;> rfl
  rw [hlinks, hkws]
  refine ⟨?_, hone, ?_⟩
  · intro k
    cases k with
    | layers => exact hone.le
    | submodule =>
      rw [hsub]
      cases c' <;> simp [CondClause.form]
    | cond => simp [no_cond_in_tail htail]
  · have hgate : ∀ g : Gate, ∀ a ∈ g.keywords, ∀ b ∈ g.keywords, a.1 = b.1 → a = b := by
      have hne : ("via".toList : Str) ≠ "kind".toList := by decide
      rintro g ⟨k, v⟩ (⟨rfl, fn, hfn, rfl⟩ | ⟨rfl, fn, hfn, rfl⟩) ⟨k', v'⟩
        (⟨rfl, fn', hfn', rfl⟩ | ⟨rfl, fn', hfn', rfl⟩) hk
      · cases hfn.symm.trans hfn'; rfl
      · exact absurd (some.inj hk) hne
      · exact absurd (some.inj hk).symm hne
      · cases hfn.symm.trans hfn'; rfl
    have hall : ∀ a ∈ c'.form.keywords, ∀ b ∈ c'.form.keywords, a.1 = b.1 → a = b := by
      cases c' with
      | probe => exact fun a ha => (Set.notMem_empty a ha).elim
      | gates inst cls g => exact hgate g
      | model inst cls g => exact hgate g
    rw [← hset] at hall
    exact hall

end

end Cond

/-! ### Statements -/

section Statement
variable {path : Str} {cm : ClassMap} {call : Expr} {stmt : Statement}

theorem stmtLink_eq_ok {t t' : StmtTail} {l : Ident × Expr} (h : stmtLink path cm t l = .ok t') :
    (clauseKind l.1 = some .layers ∧ ∃ spec, linkForm l = .layers spec ∧ t' = { t with layers := some spec }) ∨
      (clauseKind l.1 = some .submodule ∧ ∃ sub, linkForm l = submoduleForm sub ∧
        t' = { t with submodule := some sub }) ∨
      (clauseKind l.1 = some .cond ∧ ∃ c, parseCond path l.2 cm = .ok c ∧ t' = { t with cond := some c }) := by
  obtain ⟨attr, call⟩ := l
  unfold stmtLink at h
  dsimp only at h
  split at h
  · next hattr =>
    obtain ⟨spec, hspec, h⟩ := bind_eq_ok.1 h
    cases h
    have hk : clauseKind attr = some .layers := by rw [clauseKind, if_pos hattr]
    exact .inl ⟨hk, spec, linkForm_layers hk (layerForm_of_expectLayers hspec), rfl⟩
  · next hnot =>
    split at h
    · next hattr =>
      obtain ⟨sub, hsub, h⟩ := bind_eq_ok.1 h
      cases h
      have hk := clauseKind_submodule hattr
      exact .inr (.inl ⟨hk, sub, (linkForm_submodule hk).trans (argsForm_of_validateSubmodule hsub), rfl⟩)
    · next hnot' =>
      split at h
      · next hattr =>
        obtain ⟨c, hc, h⟩ := bind_eq_ok.1 h
        cases h
        refine .inr (.inr ⟨?_, c, hc, rfl⟩)
        rw [clauseKind, if_neg hnot, if_neg hnot', if_pos hattr]
      · exact absurd h fail_ne_ok

theorem verb_of_resolveVerb {opCall : Expr} {verb : Ident} {op : OpKind} (h : resolveVerb path opCall verb = .ok op) :
    verb.name = op.name := by
  unfold resolveVerb at h
  split at h
  · next heq => cases h; exact heq
  · split at h
    · next heq => cases h; exact heq
    · exact absurd h fail_ne_ok

section

variable (h : parseStatement path cm call = .ok stmt)
include h

theorem parseStatement_eq_ok :
    ∃ n m verb opCall links tail, flattenChain call = (.name n m, (verb, opCall) :: links) ∧ m.name = ['m'] ∧
      verb.name = stmt.op.name ∧ texts (callArgs opCall) = [opText stmt.opName stmt.steerer] ∧
      links.foldlM (stmtLink path cm) ⟨none, none, none⟩ = .ok tail ∧ tail.layers = some stmt.layers ∧
      tail.submodule = some stmt.submodule ∧ tail.cond = stmt.cond := by
  obtain ⟨n, m, verb, opCall, links, tail, hchain, hm, hverb, harg, htail⟩ := parseStatement_parts h
  exact ⟨n, m, verb, opCall, links, tail, hchain, hm, verb_of_resolveVerb hverb, texts_of_parseOpArg harg, htail⟩

theorem form_of_noRepeats (hone : NoRepeats call) :
    chainForm call = some stmt.form := by
  obtain ⟨n, m, verb, opCall, links, tail, hchain, hm, hverb, hargs, htail, hl, hs, hc⟩ := parseStatement_eq_ok h
  have hlinks : clauseLinks call = links := by rw [clauseLinks, hchain]; rfl
  have hclauses := hone.clauses
  have hcondClauses := hone.condClauses
  have hkeywords := hone.keywords
  rw [hlinks] at hclauses hcondClauses hkeywords
  have hlayers : (ofKind .layers links).map linkForm = [.layers stmt.layers] := by
    refine slot_form htail rfl (hclauses _) (fun t t' l _ hstep => ?_) _ hl
    rcases stmtLink_eq_ok hstep with ⟨hk, spec, hform, rfl⟩ | ⟨-, sub, -, rfl⟩ | ⟨-, c, -, rfl⟩
    · exact .inr ⟨spec, rfl, hk, hform⟩
    · exact .inl rfl
    · exact .inl rfl
  have hsubs : (ofKind .submodule links).map linkForm = [submoduleForm stmt.submodule] := by
    refine slot_form htail rfl (hclauses _) (fun t t' l _ hstep => ?_) _ hs
    rcases stmtLink_eq_ok hstep with ⟨-, spec, -, rfl⟩ | ⟨hk, sub, hform, rfl⟩ | ⟨-, c, -, rfl⟩
    · exact .inl rfl
    · exact .inr ⟨sub, rfl, hk, hform⟩
    · exact .inl rfl
  have hcondStep : ∀ t t' l, stmtLink path cm t l = .ok t' → (t'.cond = t.cond ∧ clauseKind l.1 ≠ some .cond) ∨
      ∃ c, t'.cond = some c ∧ clauseKind l.1 = some .cond ∧ parseCond path l.2 cm = .ok c := by
    intro t t' l hstep
    rcases stmtLink_eq_ok hstep with ⟨hk, spec, -, rfl⟩ | ⟨hk, sub, -, rfl⟩ | ⟨hk, c, hc, rfl⟩
    · exact .inl ⟨rfl, by rw [hk]; decide⟩
    · exact .inl ⟨rfl, by rw [hk]; decide⟩
    · exact .inr ⟨c, rfl, hk, hc⟩
  have hconds : ∀ c, tail.cond = some c → (ofKind .cond links).map (fun l => condForm l.2) = [some c.form] := by
    refine slot_form htail rfl (hclauses _) fun t t' l hmem hstep => (hcondStep t t' l hstep).imp
      And.left fun hset => ?_
    obtain ⟨c, hset, hk, hc⟩ := hset
    have hl : l ∈ ofKind .cond links := mem_ofKind.2 ⟨hmem, hk⟩
    exact ⟨c, hset, hk, form_of_parseCond hc (hcondClauses l hl) (hkeywords l hl)⟩
  have hcondForm : (ofKind .cond links).map (fun l => condForm l.2) = (stmt.cond.map fun c => some c.form).toList := by
    cases hcond : stmt.cond with
    | none => rw [slot_unused htail hcondStep (hc.trans hcond)]; rfl
    | some c => rw [hconds c (hc.trans hcond)]; rfl
  rw [chainForm, hchain]
  simp [Statement.form, hlayers, hsubs, hcondForm, hverb, hargs, Expr.text, hm]

theorem noRepeats_of_form (hform : chainForm call = some stmt.form) :
    NoRepeats call ∧ OneOfEach call := by
  obtain ⟨n, m, verb, opCall, links, tail, hchain, -, -, -, htail, -⟩ := parseStatement_eq_ok h
  have hlinks : clauseLinks call = links := by rw [clauseLinks, hchain]; rfl
  rw [chainForm, hchain, some.injEq] at hform
  have hlayers : (ofKind .layers links).length = 1 := by
    have := congrArg (fun f : ChainForm => f.layers.length) hform
    simpa [Statement.form] using this
  have hsubs : (ofKind .submodule links).length = 1 := by
    have := congrArg (fun f : ChainForm => f.submodules.length) hform
    simpa [Statement.form] using this
  have hconds : (ofKind .cond links).map (fun l => condForm l.2) = (stmt.cond.map fun c => some c.form).toList :=
    congrArg ChainForm.conds hform
  have hcond : (ofKind .cond links).length ≤ 1 := by
    have := congrArg length hconds
    rw [length_map] at this
    rw [this]
    cases stmt.cond <;> simp
  have hcondLink : ∀ l ∈ ofKind .cond links, (∀ k, (ofKind k (condLinks l.2)).length ≤ 1) ∧
      (ofKind .layers (condLinks l.2)).length = 1 ∧
      ∀ a ∈ gateKeywords l.2, ∀ b ∈ gateKeywords l.2, a.1 = b.1 → a = b := by
    intro l hl
    obtain ⟨hmem, hk⟩ := mem_ofKind.1 hl
    obtain ⟨t, t', hstep⟩ := foldlM_mem htail hmem
    have hin : condForm l.2 ∈ (stmt.cond.map fun c => some c.form).toList := by
      rw [← hconds]
      exact mem_map_of_mem (f := fun l : Ident × Expr => condForm l.2) hl
    rw [mem_toList, map_eq_some_iff] at hin
    obtain ⟨c', -, hc'⟩ := hin
    rcases stmtLink_eq_ok hstep with ⟨hk', -⟩ | ⟨hk', -⟩ | ⟨-, c, hc, -⟩
    · cases hk.symm.trans hk'
    · cases hk.symm.trans hk'
    · exact noRepeats_of_condForm hc hc'.symm
  constructor
  · refine ⟨fun k => ?_, ?_, ?_⟩
    · rw [hlinks]
      cases k with
      | layers => exact hlayers.le
      | submodule => exact hsubs.le
      | cond => exact hcond
    · rw [hlinks]
      exact fun l hl => (hcondLink l hl).1
    · rw [hlinks]
      exact fun l hl => (hcondLink l hl).2.2
  · refine ⟨?_, ?_, ?_, ?_, ?_⟩
    all_goals rw [hlinks]
    · exact hlayers
    · exact hsubs
    · exact hcond
    · exact fun l hl => (hcondLink l hl).2.1
    · exact fun l hl => (hcondLink l hl).1 .submodule

end

end Statement

/-! ### Statements up to their location -/

def CondClause.unlocated : CondClause → CondClause
  | .probe op compare weights threshold layers sub _ => .probe op compare weights threshold layers sub ⟨[], 0, 0⟩
  | .gates inst cls gate layers sub _ => .gates inst cls gate layers sub ⟨[], 0, 0⟩
  | .model inst cls gate _ => .model inst cls gate ⟨[], 0, 0⟩

def Statement.unlocated (stmt : Statement) : Statement :=
  { stmt with cond := stmt.cond.map CondClause.unlocated, loc := ⟨[], 0, 0⟩ }

theorem Statement.form_unlocated (stmt : Statement) : stmt.unlocated.form = stmt.form := by
  unfold Statement.unlocated Statement.form
  rcases stmt.cond with _ | (_ | _ | _) <;> rfl

/-- For every accepted chain: it has each clause once and says what its statement says, exactly when it
repeats no clause and gives no keyword two values. Two such chains with the same statement, up to its
location, say the same. -/
theorem clauses_reflected_iff (path : Str) (cm : ClassMap) (call : Expr) (stmt : Statement)
    (h : parseStatement path cm call = .ok stmt) :
    (OneOfEach call ∧ chainForm call = some stmt.form ↔ NoRepeats call) ∧
      (NoRepeats call → ∀ path' cm' call' stmt', parseStatement path' cm' call' = .ok stmt' → NoRepeats call' →
        stmt'.unlocated = stmt.unlocated → chainForm call' = chainForm call) := by
  refine ⟨⟨fun hform => (noRepeats_of_form h hform.2).1, fun hone => ?_⟩,
    fun hone path' cm' call' stmt' h' hone' heq => ?_⟩
  · have hform := form_of_noRepeats h hone
    exact ⟨(noRepeats_of_form h hform).2, hform⟩
  · rw [form_of_noRepeats h hone, form_of_noRepeats h' hone', ← stmt'.form_unlocated, ← stmt.form_unlocated, heq]

section Chains
open Written

def plainChain : Expr :=
  cond (layers (submodule steered "mlp.post") [2]) (probed [arg1, arg1] 1 "attention.post")

theorem plainChain_reflected :
    ∃ stmt, parseStatement [] [] plainChain = .ok stmt ∧ OneOfEach plainChain ∧
      chainForm plainChain = some stmt.form := by
  have hacc : ∃ stmt, parseStatement [] [] plainChain = .ok stmt := ⟨_, rfl⟩
  obtain ⟨stmt, hstmt⟩ := hacc
  have hcond : ofKind .cond (clauseLinks plainChain) = [(ident "cond" (by decide), plainChain)] := rfl
  refine ⟨stmt, hstmt, (clauses_reflected_iff [] [] plainChain stmt hstmt).1.2 ⟨?_, ?_, ?_⟩⟩
  · intro k
    cases k <;> decide
  · rw [hcond, forall_mem_singleton]
    intro k
    cases k <;> decide
  · rw [hcond, forall_mem_singleton]
    exact fun a ha => absurd ha not_mem_nil

def repeatedChain : Expr :=
  cond (layers (submodule (layers steered [1]) "mlp.post") [2]) (probed [arg1, arg1] 1 "attention.post")

end Chains

/-- The first layer clause of `repeatedChain` is dropped: it parses to the statement of `plainChain`. -/
theorem repeatedChain_dropped :
    ∃ stmt, parseStatement [] [] plainChain = .ok stmt ∧ parseStatement [] [] repeatedChain = .ok stmt ∧
      ¬ OneOfEach repeatedChain ∧ chainForm repeatedChain ≠ chainForm plainChain := by
  refine ⟨_, rfl, rfl, fun h => ?_, fun h => ?_⟩
  · exact absurd h.layers (by decide)
  · have := congrArg (fun f : Option ChainForm => f.map fun f => f.layers.length) h
    exact absurd this (by decide)

end Xmix.Dsl
