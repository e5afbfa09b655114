import Xmix.Dsl.Parser
import Xmix.Lib.CallBinding

/-!
# Constructions of the preamble

`_validate_construction` against the call it validates: the class's schema is a parameter list, and the
call binds its arguments to it by the rule of `CallBinding`. A starred or a `**` argument stands for
any number of values, so a call with one binds or not depending on what they expand to.
-/

namespace Xmix.Dsl

open Xmix.Except List Option
open PyStr CallBinding

def Expr.starred : Expr → Bool
  | .star .. => true
  | _ => false

structure Expansion where
  items : Nat → List Str
  entries : Nat → List (Str × Str)

def Expansion.positional (ρ : Expansion) (args : List Expr) : List Str :=
  args.zipIdx.flatMap fun (a, i) => if a.starred then ρ.items i else [a.pos.seg]

def Expansion.keywords (ρ : Expansion) (kws : List (Option Ident × Expr)) : List (Str × Str) :=
  kws.zipIdx.flatMap fun
    | ((some name, value), _) => [(name.name, value.pos.seg)]
    | ((none, _), i) => ρ.entries i

def Explicit (args : List Expr) (kws : List (Option Ident × Expr)) : Prop :=
  (∀ a ∈ args, a.starred = false) ∧ ∀ kw ∈ kws, kw.1.isSome

def keywordCall (target : Expr) (cls : Ident) (bound : List (Str × (Str ⊕ Str))) : Str :=
  target.pos.seg ++ " = ".toList ++ cls.name ++
    '(' :: join ", ".toList (bound.map fun (k, v) => k ++ '=' :: v.elim id id) ++ [')']

/-- The check accepts the calls that bind, and rewrites them with all their keywords. -/
structure Agrees (target : Expr) (cls : Ident) (schema : ArgSchema) (answer : Except Exc (Option Str))
    (bound : Option (List (Str × (Str ⊕ Str)))) : Prop where
  accepts : (∃ text, answer = .ok text) ↔ bound.isSome
  rewrites : ∀ text, answer = .ok (some text) →
    ∃ b, bound = some b ∧ b.map Prod.fst = schema.map Prod.fst ∧ text = keywordCall target cls b

/-! ### The schemas -/

theorem argSchema_nodup {cls : Str} {schema : ArgSchema} (h : argSchema cls = some (some schema)) :
    (schema.map Prod.fst).Nodup := by
  unfold argSchema at h
  split at h
  · next op _ =>
    rw [some.injEq] at h
    cases op <;> cases h <;> decide +kernel
  · obtain ⟨c, -, h⟩ := map_eq_some_iff.1 h
    rw [some.injEq] at h
    subst h
    rcases c with c | c <;> cases c <;> decide +kernel

/-! ### What is provided -/

def keywordTexts (kws : List (Option Ident × Expr)) : List (Str × Str) :=
  kws.filterMap fun (name, value) => name.map fun n => (n.name, value.pos.seg)

section Provide
variable {path cls : Str} {p : Pos} {schema : ArgSchema}

theorem provideKeyword_eq_ok {provided provided' : List (Str × Str)} {kw : Option Ident × Expr} :
    provideKeyword path p cls schema provided kw = .ok provided' ↔
      ∃ name, kw.1 = some name ∧ name.name ∈ schema.map Prod.fst ∧ name.name ∉ provided.map Prod.fst ∧
        provided' = provided ++ [(name.name, kw.2.pos.seg)] := by
  obtain ⟨name, value⟩ := kw
  have hlook : ∀ k : Str, (provided.lookup k).isSome = true ↔ k ∈ provided.map Prod.fst := by
    intro k
    rw [List.lookup_isSome_iff, List.mem_map]
    constructor
    · rintro ⟨e, he, hk⟩
      exact ⟨e, he, (beq_iff_eq.1 hk).symm⟩
    · rintro ⟨e, he, rfl⟩
      exact ⟨e, he, beq_self_eq_true _⟩
  cases name with
  | none => simp [provideKeyword, fail]
  | some name =>
    unfold provideKeyword
    dsimp only
    split
    · next hnot =>
      have : name.name ∉ schema.map Prod.fst := by simpa using hnot
      constructor
      · intro h; exact absurd h fail_ne_ok
      · rintro ⟨n, hn, hin, -⟩
        cases hn
        exact absurd hin this
    · next hin =>
      have hin' : name.name ∈ schema.map Prod.fst := by simpa using hin
      split
      · next htwice =>
        constructor
        · intro h; exact absurd h fail_ne_ok
        · rintro ⟨n, hn, -, hnot, -⟩
          cases hn
          exact absurd ((hlook _).1 htwice) hnot
      · next honce =>
        constructor
        · intro h
          cases h
          exact ⟨name, rfl, hin', fun hm => honce ((hlook _).2 hm), rfl⟩
        · rintro ⟨n, hn, -, -, rfl⟩
          cases hn
          rfl

theorem foldlM_provideKeyword {kws : List (Option Ident × Expr)} {provided provided' : List (Str × Str)}
    (hnd : (provided.map Prod.fst).Nodup) :
    kws.foldlM (provideKeyword path p cls schema) provided = .ok provided' ↔
      (∀ kw ∈ kws, kw.1.isSome) ∧ (∀ kw ∈ keywordTexts kws, kw.1 ∈ schema.map Prod.fst) ∧
        ((provided ++ keywordTexts kws).map Prod.fst).Nodup ∧ provided' = provided ++ keywordTexts kws := by
  induction kws generalizing provided with
  | nil =>
    have happ : provided ++ keywordTexts [] = provided := append_nil _
    rw [happ]
    constructor
    · intro h
      cases h
      exact ⟨fun _ h => (not_mem_nil h).elim, fun _ h => (not_mem_nil h).elim, hnd, rfl⟩
    · rintro ⟨-, -, -, rfl⟩
      rfl
  | cons kw kws ih =>
    rw [foldlM_cons, bind_eq_ok]
    simp only [provideKeyword_eq_ok]
    obtain ⟨name, value⟩ := kw
    cases name with
    | none => simp
    | some name =>
      have htexts : keywordTexts ((some name, value) :: kws) = (name.name, value.pos.seg) :: keywordTexts kws := rfl
      have hassoc : ∀ l : List (Str × Str), provided ++ (name.name, value.pos.seg) :: l =
          (provided ++ [(name.name, value.pos.seg)]) ++ l := fun l => by simp
      have hsnoc : name.name ∉ provided.map Prod.fst →
          ((provided ++ [(name.name, value.pos.seg)]).map Prod.fst).Nodup := by
        intro hnot
        rw [map_append, nodup_append]
        refine ⟨hnd, nodup_singleton _, ?_⟩
        rintro a ha b hb rfl
        rw [map_singleton, mem_singleton] at hb
        subst hb
        exact hnot ha
      rw [htexts]
      constructor
      · rintro ⟨mid, ⟨n, hn, hin, hnot, rfl⟩, hrest⟩
        cases hn
        obtain ⟨hsome, hnames, hnodup, rfl⟩ := (ih (hsnoc hnot)).1 hrest
        rw [hassoc]
        exact ⟨forall_mem_cons.2 ⟨rfl, hsome⟩, forall_mem_cons.2 ⟨hin, hnames⟩, hnodup, rfl⟩
      · rintro ⟨hsome, hnames, hnodup, rfl⟩
        rw [forall_mem_cons] at hsome hnames
        have hnot : name.name ∉ provided.map Prod.fst := by
          intro hm
          rw [map_append, nodup_append] at hnodup
          exact hnodup.2.2 _ hm _ (by simp) rfl
        rw [hassoc] at hnodup
        exact ⟨_, ⟨name, rfl, hnames.1, hnot, rfl⟩, (ih (hsnoc hnot)).2 ⟨hsome.2, hnames.2, hnodup, hassoc _⟩⟩

end Provide

/-! ### The answer of the validator -/

def countedTexts (args : List Expr) : List Str := args.map fun a => a.pos.seg

theorem entryText {g : List (Str × Str)} {param : Str × Option Str}
    {e : Str × (Str ⊕ Str)} (h : entry g param = some e) :
    param.1 ++ '=' :: (g.lookup param.1).getD (param.2.getD []) = e.1 ++ '=' :: e.2.elim id id := by
  unfold entry at h
  obtain ⟨v, hv, rfl⟩ := map_eq_some_iff.1 h
  cases hl : g.lookup param.1 with
  | none =>
    rw [hl] at hv
    obtain ⟨d, hd, rfl⟩ := map_eq_some_iff.1 hv
    simp [hd]
  | some a =>
    rw [hl] at hv
    cases hv
    rfl

section
variable {target : Expr} {cls : Ident} {schema : ArgSchema} {answer : Option Str}

theorem injectDefaults_eq_ok {loc : SourceLoc} (g : List (Str × Str))
    {msg : Str} :
    (if (schema.filter fun e => e.2.isNone && (g.lookup e.1).isNone) ≠ [] then fail loc msg []
      else if ((schema.map Prod.fst).all fun k => (g.lookup k).isSome) = true then pure none
      else pure (some (target.pos.seg ++ " = ".toList ++ cls.name ++
        '(' :: join ", ".toList (schema.map fun e => e.1 ++ '=' :: (g.lookup e.1).getD (e.2.getD [])) ++ [')'])) :
      Except Exc (Option Str)) = .ok answer ↔
      ∃ bound, schema.mapM (entry g) = some bound ∧
        answer = if bound.all (fun e => e.2.isLeft) then none else some (keywordCall target cls bound) := by
  have hmissing : (schema.filter fun e => e.2.isNone && (g.lookup e.1).isNone) = [] ↔
      ∃ bound, schema.mapM (entry g) = some bound := by
    rw [filter_eq_nil_iff, exists_mapM]
    refine forall₂_congr fun e _ => ?_
    rw [isSome_entry]
    generalize g.lookup e.1 = v
    cases e.2 <;> cases v <;> simp
  by_cases hb : ∃ bound, schema.mapM (entry g) = some bound
  · rw [if_neg (fun hne => hne (hmissing.2 hb))]
    obtain ⟨bound, hbound⟩ := hb
    have hforall := mapM_eq_some.1 hbound
    have hall : ((schema.map Prod.fst).all fun k => (g.lookup k).isSome) = bound.all fun e => e.2.isLeft := by
      clear hmissing hbound
      induction hforall with
      | nil => rfl
      | cons he _ ih => rw [map_cons, all_cons, all_cons, ih, (entry_eq_some he).2]
    have hparts : (schema.map fun e => e.1 ++ '=' :: (g.lookup e.1).getD (e.2.getD [])) =
        bound.map fun (k, v) => k ++ '=' :: v.elim id id := by
      clear hmissing hbound hall
      induction hforall with
      | nil => rfl
      | cons he _ ih => rw [map_cons, map_cons, ih, entryText he]
    rw [hall, hparts]
    have hans : (if (bound.all fun e => e.2.isLeft) =
      true then pure none else pure (some (keywordCall target cls bound)) :
        Except Exc (Option Str)) = .ok answer ↔
        answer = if bound.all (fun e => e.2.isLeft) then none else some (keywordCall target cls bound) := by
      split <;> exact ⟨fun h => (pure_eq_ok.1 h).symm, fun h => pure_eq_ok.2 h.symm⟩
    refine hans.trans ?_
    constructor
    · intro h
      exact ⟨bound, hbound, h⟩
    · rintro ⟨bound', hbound', h⟩
      cases hbound.symm.trans hbound'
      exact h
  · rw [if_pos (fun h => hb (hmissing.1 h))]
    constructor
    · intro h
      exact absurd h fail_ne_ok
    · rintro ⟨bound, hbound, -⟩
      exact absurd ⟨bound, hbound⟩ hb

theorem validateConstruction_eq_ok {path : Str} {p q n : Pos} {args : List Expr}
    {kws : List (Option Ident × Expr)} (hschema : argSchema cls.name = some (some schema)) :
    validateConstruction path (.assign p [target] (.call q (.name n cls) args kws)) = .ok answer ↔
      (∀ kw ∈ kws, kw.1.isSome) ∧ ∃ bound, bindCall schema (countedTexts args) (keywordTexts kws) = some bound ∧
        answer = if bound.all (fun e => e.2.isLeft) then none else some (keywordCall target cls bound) := by
  have hnd := argSchema_nodup hschema
  rw [bindCall_eq hnd]
  have hgiven : given schema (countedTexts args) (keywordTexts kws) =
      ((schema.map Prod.fst).zip args).map (fun e => (e.1, e.2.pos.seg)) ++ keywordTexts kws := by
    rw [given, countedTexts, zip_map_right]
    rfl
  have hpos : (((schema.map Prod.fst).zip args).map fun e => (e.1, e.2.pos.seg)).map Prod.fst =
      (schema.map Prod.fst).take args.length := by
    rw [List.map_map]
    exact map_fst_zip _ _
  have hstart : ((((schema.map Prod.fst).zip args).map fun e => (e.1, e.2.pos.seg)).map Prod.fst).Nodup := by
    rw [hpos]
    exact hnd.take
  unfold validateConstruction
  simp only [hschema]
  by_cases hlen : args.length ≤ schema.length
  · have hlen' : ¬ args.length > (schema.map Prod.fst).length := by simpa using hlen
    rw [if_neg hlen', bind_eq_ok]
    simp only [foldlM_provideKeyword hstart]
    rw [← hgiven]
    have hcount : (countedTexts args).length ≤ schema.length := by simpa [countedTexts] using hlen
    simp only [hcount, true_and]
    constructor
    · rintro ⟨a, ⟨hsome, hnames, hnodup, rfl⟩, htail⟩
      rw [if_pos ⟨hnames, hnodup⟩]
      exact ⟨hsome, (injectDefaults_eq_ok _).1 htail⟩
    · rintro ⟨hsome, bound, hbound, hanswer⟩
      split at hbound
      · next hok => exact ⟨_, ⟨hsome, hok.1, hok.2, rfl⟩, (injectDefaults_eq_ok _).2 ⟨bound, hbound, hanswer⟩⟩
      · cases hbound
  · have hlen' : args.length > (schema.map Prod.fst).length := by simpa using hlen
    have hcount : ¬ (countedTexts args).length ≤ schema.length := by simpa [countedTexts] using hlen
    rw [if_pos hlen']
    simp [fail, hcount]

end

/-! ### Expansions -/

section Expansions
variable {ρ : Expansion} {args : List Expr} {kws : List (Option Ident × Expr)}

def Expansion.single (args : List Expr) : Expansion := ⟨fun i => (args[i]?.map fun a => a.pos.seg).toList, fun _ => []⟩

def Expansion.replicate (n : Nat) : Expansion := ⟨fun _ => List.replicate n [], fun _ => []⟩

theorem keywords_eq (h : ∀ kw ∈ kws, kw.1.isSome) : ρ.keywords kws = keywordTexts kws := by
  have hgen : ∀ (kws : List (Option Ident × Expr)) (n : Nat), (∀ kw ∈ kws, kw.1.isSome) →
      ((kws.zipIdx n).flatMap fun
        | ((some name, value), _) => [(name.name, value.pos.seg)]
        | ((none, _), i) => ρ.entries i) = keywordTexts kws := by
    intro kws
    induction kws with
    | nil => exact fun _ _ => rfl
    | cons kw kws ih =>
      intro n h
      obtain ⟨name, value⟩ := kw
      rw [forall_mem_cons] at h
      obtain ⟨name, rfl⟩ := isSome_iff_exists.1 h.1
      rw [zipIdx_cons, flatMap_cons, ih (n + 1) h.2]
      rfl
  exact hgen kws 0 h

theorem positional_eq (h : ∀ (i : Nat) (a : Expr), args[i]? = some a → a.starred = true → ρ.items i = [a.pos.seg]) :
    ρ.positional args = countedTexts args := by
  have hgen : ∀ (xs : List (Expr × Nat)), (∀ x ∈ xs, x.1.starred = true → ρ.items x.2 = [x.1.pos.seg]) →
      (xs.flatMap fun (a, i) => if a.starred then ρ.items i else [a.pos.seg]) = xs.map fun x => x.1.pos.seg := by
    intro xs
    induction xs with
    | nil => exact fun _ => rfl
    | cons x xs ih =>
      intro h
      rw [forall_mem_cons] at h
      rw [flatMap_cons, map_cons, ih h.2]
      by_cases hx : x.1.starred = true
      · simp [hx, h.1 hx]
      · simp [hx]
  rw [Expansion.positional, hgen]
  · rw [countedTexts]
    conv_rhs => rw [← List.zipIdx_map_fst 0 args, List.map_map]
    rfl
  · intro x hx
    exact h x.2 x.1 (mem_zipIdx_iff_getElem?.1 hx)

theorem positional_single (args : List Expr) : (Expansion.single args).positional args = countedTexts args :=
  positional_eq fun i a ha _ => by simp [Expansion.single, ha]

theorem length_positional_replicate {n : Nat} (h : ∃ a ∈ args, a.starred = true) :
    n ≤ ((Expansion.replicate n).positional args).length := by
  obtain ⟨a, ha, hstar⟩ := h
  obtain ⟨i, hi, rfl⟩ := getElem_of_mem ha
  have hmem : (args[i], i) ∈ args.zipIdx := by simp [mem_zipIdx_iff_getElem?]
  obtain ⟨pre, post, hsplit⟩ := append_of_mem hmem
  rw [Expansion.positional, hsplit, flatMap_append, flatMap_cons]
  simp only [hstar, if_true, length_append, Expansion.replicate, length_replicate]
  omega

end Expansions

/-- For every construction of a class with a schema: whatever its starred and `**` arguments expand to,
the validator agrees with the call, exactly when it has none of them or no expansion lets it bind. -/
theorem validateConstruction_agrees_iff (path : Str) (p q n : Pos) (target : Expr) (cls : Ident) (args : List Expr)
    (kws : List (Option Ident × Expr)) (schema : ArgSchema) (hschema : argSchema cls.name = some (some schema)) :
    (∀ ρ : Expansion, Agrees target cls schema
        (validateConstruction path (.assign p [target] (.call q (.name n cls) args kws)))
        (bindCall schema (ρ.positional args) (ρ.keywords kws))) ↔
      Explicit args kws ∨ ∀ ρ : Expansion, bindCall schema (ρ.positional args) (ρ.keywords kws) = none := by
  constructor
  · intro hagree
    by_contra hcon
    rw [not_or] at hcon
    obtain ⟨hexpl, hbind⟩ := hcon
    -- some expansion binds, so the call was accepted, and then it has no `**` and one starred argument
    obtain ⟨ρ, hρ⟩ := not_forall.1 hbind
    obtain ⟨answer, hok⟩ := (hagree ρ).accepts.2 (isSome_iff_ne_none.2 hρ)
    have hsome := ((validateConstruction_eq_ok hschema).1 hok).1
    have hstar : ∃ a ∈ args, a.starred = true := by
      by_contra hno
      exact hexpl ⟨fun a ha => by simpa using fun h => hno ⟨a, ha, h⟩, hsome⟩
    -- which may expand to more values than there are parameters
    have hlong := (hagree (Expansion.replicate (schema.length + 1))).accepts.1 ⟨answer, hok⟩
    have hlen := length_positional_replicate (n := schema.length + 1) hstar
    rw [bindCall, if_neg (fun h => by omega)] at hlong
    cases hlong
  · rintro (⟨hargs, hkws⟩ | hnone) ρ
    · have hpos : ρ.positional args = countedTexts args := positional_eq fun i a ha hstar =>
        absurd hstar (by simp [hargs a (mem_of_getElem? ha)])
      rw [hpos, keywords_eq hkws]
      refine ⟨?_, fun text hok => ?_⟩
      · rw [isSome_iff_exists]
        simp only [validateConstruction_eq_ok hschema]
        constructor
        · rintro ⟨answer, -, bound, hbound, -⟩
          exact ⟨bound, hbound⟩
        · rintro ⟨bound, hbound⟩
          exact ⟨_, hkws, bound, hbound, rfl⟩
      · obtain ⟨-, bound, hbound, hanswer⟩ := (validateConstruction_eq_ok hschema).1 hok
        refine ⟨bound, hbound, keys_of_bindCall hbound, ?_⟩
        split at hanswer
        · cases hanswer
        · exact some.inj hanswer
    · rw [hnone ρ]
      have hrejected : ∀ answer, validateConstruction path
        (.assign p [target] (.call q (.name n cls) args kws)) ≠ .ok answer := by
        intro answer hok
        obtain ⟨hsome, bound, hbound, -⟩ := (validateConstruction_eq_ok hschema).1 hok
        have := hnone (Expansion.single args)
        rw [positional_single, keywords_eq hsome, hbound] at this
        cases this
      exact ⟨⟨fun ⟨answer, hok⟩ => absurd hok (hrejected answer), fun h => nomatch h⟩,
        fun text hok => absurd hok (hrejected _)⟩

open Written in
/-- `self.v = LinearProbe(w, bias=b)`: the one default left is injected. -/
theorem probe_agrees :
    (∃ schema, argSchema "LinearProbe".toList = some (some schema) ∧
      ∀ ρ : Expansion, Agrees (selfAttr vName) (ident "LinearProbe" (by decide)) schema
        (validateConstruction [] (.assign (here "") [selfAttr vName]
          (.call (here "") (name (ident "LinearProbe" (by decide)))
          [.other (here "w")] [(some (ident "bias" (by decide)), .other (here "b"))])))
        (bindCall schema (ρ.positional [.other (here "w")])
          (ρ.keywords [(some (ident "bias" (by decide)), .other (here "b"))]))) := by
  refine ⟨_, rfl, (validateConstruction_agrees_iff _ _ _ _ _ _ _ _ _ rfl).2 (.inl ⟨?_, ?_⟩)⟩
  · intro a ha
    rw [mem_singleton.1 ha]
    rfl
  · intro kw hkw
    rw [mem_singleton.1 hkw]
    rfl

open Written in
/-- `self.v = SteeringVectorScaledAdder(*xs, c)` is accepted and rewritten with `r=*xs`, which is no
expression; with three values in `xs` the call does not bind. -/
theorem starred_rewritten :
    ∃ (schema : ArgSchema) (ρ : Expansion) (target : Expr) (cls : Ident) (args : List Expr),
      target.pos.seg = "self.v".toList ∧ args.map (fun a => a.pos.seg) = ["*xs".toList, "c".toList] ∧
      argSchema cls.name = some (some schema) ∧
      validateConstruction [] (.assign (here "") [target] (.call (here "") (name cls) args [])) =
        .ok (some "self.v = SteeringVectorScaledAdder(r=*xs, coeff=c, max_tokens=2048)".toList) ∧
      bindCall schema (ρ.positional args) (ρ.keywords []) = none :=
  ⟨_, ⟨fun _ => [['x'], ['y'], ['z']], fun _ => []⟩, .attribute (here "self.v") (name self) vName,
    ident "SteeringVectorScaledAdder" (by decide),
      [.star (here "*xs") (.other (here "xs")), .other (here "c")], rfl, rfl, rfl, rfl, rfl⟩

end Xmix.Dsl
