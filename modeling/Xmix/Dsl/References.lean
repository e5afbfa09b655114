import Xmix.Dsl.Parser

/-!
# References to preamble instances

A statement or a `.cond` names an object the preamble built; its class is looked up in the class map.
The map records the assignments whose value is a call of a bare name and passes over all others, so it
may hold a class the name no longer has when the preamble has run.
-/

namespace Xmix.Dsl

open Xmix.Except List
open PyStr

variable {p : Pos} {path : Str}

def Expr.calledName : Expr → Option Ident
  | .call _ (.name _ cls) _ _ => some cls
  | _ => none

mutual

/-- The names an assignment to the target binds, those inside of tuples, lists and starred targets included. -/
def Expr.boundNames : Expr → List Dotted
  | .tuple _ elts | .list _ elts => boundNamesIn elts
  | .star _ value => value.boundNames
  | e => (dottedName e).toList

def boundNamesIn : List Expr → List Dotted
  | [] => []
  | e :: es => e.boundNames ++ boundNamesIn es

end

def Node.targets : Node → List Expr
  | .assign _ targets _ => targets
  | .annAssign _ target (some _) | .augAssign _ target => [target]
  | _ => []

def Node.built : Node → Option Ident
  | .assign _ _ value | .annAssign _ _ (some value) => value.calledName
  | _ => none

/-- The class whose call `v` is bound to, if the last target with `v` in it is `v` itself. -/
def Node.constructs (v : Dotted) (node : Node) : Option Ident :=
  if (node.targets.reverse.find? (v ∈ ·.boundNames)).bind dottedName = some v then node.built else none

def lastAssignment (body : List Node) (v : Dotted) : Option Node :=
  body.reverse.find? fun node => v ∈ boundNamesIn node.targets

def Node.recorded (v : Dotted) : Node → Option Ident
  | .assign _ targets value => if v ∈ targets.filterMap dottedName then value.calledName else none
  | _ => none

/-- The class of the last plain assignment `v = .. = Cls(..)`. -/
def lastConstruction (body : List Node) (v : Dotted) : Option Ident := body.reverse.findSome? (Node.recorded v)

def CondClause.references : CondClause → List (Dotted × Str)
  | .probe .. => []
  | .gates inst cls .. => [(inst, cls.spec.name)]
  | .model inst cls .. => [(inst, cls.spec.name)]

def Statement.references (stmt : Statement) : List (Dotted × Str) :=
  (match stmt.steerer with
    | .synth _ => []
    | .inst expr => [(expr, stmt.opName.name)]) ++
    (stmt.cond.map CondClause.references).getD []

/-! ### The class map -/

section ClassMap
variable {v : Dotted} {cm : ClassMap}

theorem lookup_collectAssignment (node : Node) :
    (collectAssignment node cm).lookup v = (node.recorded v).or (cm.lookup v) := by
  have hfold : ∀ (cls : Ident) (bindTarget : ClassMap → Expr → ClassMap),
      (∀ cm t, bindTarget cm t = (dottedName t).elim cm fun d => (d, cls) :: cm) →
        ∀ (targets : List Expr) (cm : ClassMap),
      (targets.foldl bindTarget cm).lookup v = if v ∈ targets.filterMap dottedName then some cls else cm.lookup v := by
    intro cls bindTarget hbind targets
    induction targets with
    | nil => simp
    | cons t targets ih =>
      intro cm
      rw [foldl_cons, ih, filterMap_cons, hbind]
      cases ht : dottedName t with
      | none => rfl
      | some d =>
        rw [Option.elim_some]
        by_cases hm : v ∈ targets.filterMap dottedName
        · simp [hm]
        · by_cases hd : v = d
          · subst hd; simp [hm]
          · have hne : (v == d) = false := by simpa using hd
            simp [hm, hd, lookup_cons, hne]
  cases node with
  | expr | annAssign | augAssign | other => rfl
  | assign p targets value =>
    by_cases hc : ∃ cls, value.calledName = some cls
    · obtain ⟨cls, hcls⟩ := hc
      obtain ⟨q, n, args, kws, rfl⟩ : ∃ q n args kws, value = .call q (.name n cls) args kws := by
        unfold Expr.calledName at hcls
        split at hcls
        · cases hcls; exact ⟨_, _, _, _, rfl⟩
        · cases hcls
      refine (hfold cls _ (fun cm t => ?_) targets cm).trans ?_
      · cases dottedName t <;> rfl
      rw [Node.recorded]
      split <;> rfl
    · have hnone : value.calledName = none := by
        cases h : value.calledName with
        | none => rfl
        | some cls => exact absurd ⟨cls, h⟩ hc
      have hskip : collectAssignment (.assign p targets value) cm = cm := by
        unfold collectAssignment
        split
        · next heq => cases heq; cases hnone
        · rfl
      rw [hskip, Node.recorded]
      split <;> simp [hnone]

theorem lookup_classMap (body : List Node) :
    (body.foldl (fun cm node => collectAssignment node cm) []).lookup v = lastConstruction body v := by
  induction body using reverseRecOn with
  | nil => rfl
  | append_singleton body node ih =>
    rw [foldl_append, foldl_cons, foldl_nil, lookup_collectAssignment, ih, lastConstruction, lastConstruction,
      reverse_append, reverse_singleton, singleton_append, findSome?_cons]
    cases node.recorded v <;> rfl

end ClassMap

/-! ### What the parser looked up -/

def Resolved (cm : ClassMap) (refs : List (Dotted × Str)) : Prop :=
  ∀ ref ∈ refs, ∃ cls, cm.lookup ref.1 = some cls ∧ cls.name = ref.2

theorem lookupCls_eq_some {name : Str} {c : CondCls} (h : lookupCls name = some c) : c.name = name := by
  simpa using find?_some h

variable {cm : ClassMap}

theorem parseOpArg_resolved {opCall : Expr} {op : Op} {inst : Dotted}
    (h : parseOpArg path opCall cm = .ok (op, .inst inst)) : Resolved cm [(inst, op.name)] := by
  rcases parseOpArg_eq_ok h with ⟨_, _, _, _, _, _, _, ids, -, -, -, -, -, hids⟩ |
    ⟨_, _, _, inst, cls, -, -, hcls, hname, -, hinst⟩
  · cases hids
  · cases hinst
    intro ref hr
    rw [mem_singleton.1 hr]
    exact ⟨cls, hcls, hname.symm⟩

variable {c : CondClause}

theorem parseCond_resolved {call : Expr} (h : parseCond path call cm = .ok c) :
    Resolved cm c.references := by
  obtain ⟨_, _, _, _, -, -, ⟨_, _, -, -, hp⟩ | ⟨inst, cls, -, hcls, hi⟩⟩ := parseCond_eq_ok h
  · obtain ⟨_, _, _, _, _, -, -, -, -, -, rfl⟩ := parseCondProbe_eq_ok hp
    exact fun ref hr => nomatch hr
  · have href : c.references = [(inst, cls.name)] := by
      obtain ⟨_, _, -, -, -, ⟨_, hname, -, -, rfl⟩ | ⟨_, _, _, hname, -, -, rfl⟩⟩ := parseCondInstance_eq_ok hi
      all_goals
        rw [← lookupCls_eq_some hname]
        rfl
    intro ref hr
    rw [href, mem_singleton] at hr
    rw [hr]
    exact ⟨cls, hcls, rfl⟩

theorem stmtLink_resolved {t t' : StmtTail} {link : Ident × Expr}
    (ht : ∀ c, t.cond = some c → Resolved cm c.references) (h : stmtLink path cm t link = .ok t') :
    ∀ c, t'.cond = some c → Resolved cm c.references := by
  obtain ⟨attr, call⟩ := link
  unfold stmtLink at h
  dsimp only at h
  split at h
  · obtain ⟨layers, -, h⟩ := bind_eq_ok.1 h
    cases h
    exact ht
  · split at h
    · obtain ⟨sub, -, h⟩ := bind_eq_ok.1 h
      cases h
      exact ht
    · split at h
      · obtain ⟨cond, hcond, h⟩ := bind_eq_ok.1 h
        cases h
        intro c hc
        cases hc
        exact parseCond_resolved hcond
      · exact absurd h fail_ne_ok

theorem parseStatement_resolved {call : Expr} {stmt : Statement}
    (h : parseStatement path cm call = .ok stmt) : Resolved cm stmt.references := by
  obtain ⟨_, _, _, opCall, links, tail, -, -, -, harg, htail, -, -, hc⟩ := parseStatement_parts h
  have hcond : ∀ c, tail.cond = some c → Resolved cm c.references := by
    refine foldlM_inv (fun t : StmtTail => ∀ c, t.cond = some c → Resolved cm c.references) ?_ ?_ htail
    · exact fun t link t' _ ht hstep => stmtLink_resolved ht hstep
    · exact fun c hc => nomatch hc
  intro ref hr
  rcases mem_append.1 hr with hr | hr
  · cases hs : stmt.steerer with
    | synth => rw [hs] at hr; cases hr
    | inst expr =>
      rw [hs] at harg hr
      exact parseOpArg_resolved harg ref hr
  · cases hc' : stmt.cond with
    | none => rw [hc'] at hr; cases hr
    | some c =>
      rw [hc'] at hr
      exact hcond c (hc.trans hc') ref hr

theorem parseAndValidate_classMap {f : XmixFile} {body : List Node} {r : ParseResult} (htree : f.tree = .ok body)
    (h : parseAndValidate f = .ok r) :
    ∀ stmt ∈ r.statements, ∃ call, parseStatement f.path
      (body.foldl (fun cm node => collectAssignment node cm) []) call = .ok stmt := by
  have hpass : ∀ (nodes : List Node) (st st' : FirstPass), nodes.foldlM (firstPassNode f.path) st = .ok st' →
      st'.classMap = nodes.foldl (fun cm node => collectAssignment node cm) st.classMap := by
    intro nodes
    induction nodes with
    | nil => intro st st' h; cases h; rfl
    | cons node nodes ih =>
      intro st st' h
      rw [foldlM_cons] at h
      obtain ⟨t, ht, h⟩ := bind_eq_ok.1 h
      rw [ih t st' h, foldl_cons]
      congr 1
      unfold firstPassNode at ht
      split at ht
      · next call hm =>
        cases ht
        cases node with
        | assign => cases hm
        | _ => rfl
      · obtain ⟨augmented, -, ht⟩ := bind_eq_ok.1 ht
        cases ht
        rfl
  unfold parseAndValidate at h
  rw [htree] at h
  obtain ⟨st, hst, h⟩ := bind_eq_ok.1 h
  obtain ⟨ranges, -, h⟩ := bind_eq_ok.1 h
  obtain ⟨rangeCls, -, h⟩ := bind_eq_ok.1 h
  obtain ⟨statements, hstmts, h⟩ := bind_eq_ok.1 h
  obtain ⟨model, -, h⟩ := bind_eq_ok.1 h
  cases h
  intro stmt hmem
  obtain ⟨call, -, hcall⟩ := exists_of_mem_mapM hstmts hmem
  exact ⟨call, hpass body _ _ hst ▸ hcall⟩

/-- For every accepted file: each name a statement refers to is last assigned a call of exactly the
class the statement was validated with, exactly when that assignment, whatever its form, constructs the
class of the last plain construction of the name. -/
theorem references_resolve_iff (f : XmixFile) (body : List Node) (r : ParseResult) (htree : f.tree = .ok body)
    (h : parseAndValidate f = .ok r) :
    (∀ stmt ∈ r.statements, ∀ ref ∈ stmt.references, ∃ node cls, lastAssignment body ref.1 = some node ∧
        node.constructs ref.1 = some cls ∧ cls.name = ref.2) ↔
      ∀ stmt ∈ r.statements, ∀ ref ∈ stmt.references,
        (lastAssignment body ref.1).bind (Node.constructs ref.1) = lastConstruction body ref.1 := by
  have hused : ∀ stmt ∈ r.statements, ∀ ref ∈ stmt.references,
      ∃ cls, lastConstruction body ref.1 = some cls ∧ cls.name = ref.2 := by
    intro stmt hmem ref hr
    obtain ⟨call, hcall⟩ := parseAndValidate_classMap htree h stmt hmem
    obtain ⟨cls, hlook, hname⟩ := parseStatement_resolved hcall ref hr
    exact ⟨cls, (lookup_classMap body).symm.trans hlook, hname⟩
  refine forall₂_congr fun stmt hmem => forall₂_congr fun ref hr => ?_
  obtain ⟨cls, hlast, hname⟩ := hused stmt hmem ref hr
  rw [hlast, Option.bind_eq_some_iff]
  constructor
  · rintro ⟨node, cls', hnode, hcls', hname'⟩
    obtain rfl : cls' = cls := by
      cases cls
      cases cls'
      cases hname'.trans hname.symm
      rfl
    exact ⟨node, hnode, hcls'⟩
  · rintro ⟨node, hnode, hcls⟩
    exact ⟨node, cls, hnode, hcls, hname⟩

open Written in
def reassignedFile : XmixFile where
  path := "reassigned.xmix".toList
  src := []
  tree := .ok
    [scorer vName, stmt (submodule (layer (write (run (selfAttr vName))) (ints [3])) "mlp.post"), adder vName]

theorem reassignedFile_resolves :
    ∃ body r, reassignedFile.tree = .ok body ∧ parseAndValidate reassignedFile = .ok r ∧
      ∀ stmt ∈ r.statements, ∀ ref ∈ stmt.references, ∃ node cls, lastAssignment body ref.1 = some node ∧
        node.constructs ref.1 = some cls ∧ cls.name = ref.2 := by
  have hacc : ∃ r, parseAndValidate reassignedFile = .ok r := ⟨_, rfl⟩
  obtain ⟨r, hr⟩ := hacc
  refine ⟨_, r, rfl, hr, (references_resolve_iff reassignedFile _ r rfl hr).2 fun stmt hmem ref href => ?_⟩
  have hparsed : (parseAndValidate reassignedFile).map
    (fun r => r.statements.flatMap fun s => s.references.map Prod.fst) =
      .ok [⟨Written.self, [Written.vName]⟩] := rfl
  rw [hr] at hparsed
  have hv : ref.1 ∈ r.statements.flatMap fun s => s.references.map Prod.fst :=
    mem_flatMap.2 ⟨stmt, hmem, mem_map_of_mem href⟩
  have hrefs : (r.statements.flatMap fun s => s.references.map Prod.fst) = [⟨Written.self, [Written.vName]⟩] :=
    Except.ok.inj hparsed
  rw [hrefs, mem_singleton] at hv
  rw [hv]
  rfl

open Written in
def clearedFile : XmixFile where
  path := "cleared.xmix".toList
  src := []
  tree := .ok
    [adder vName, .assign (here "self.v = None") [selfAttr vName] (.other (here "None")),
      stmt (submodule (layer (write (run (selfAttr vName))) (ints [3])) "mlp.post")]

/-- `clearedFile` is accepted: its statement is validated as an adder, and installs a method of `None`. -/
theorem clearedFile_unresolved :
    ∃ body r stmt node, clearedFile.tree = .ok body ∧ parseAndValidate clearedFile = .ok r ∧ r.statements = [stmt] ∧
      stmt.references = [(⟨Written.self, [Written.vName]⟩, Op.steeringVectorAdder.name)] ∧
      lastAssignment body ⟨Written.self, [Written.vName]⟩ = some node ∧
        node.constructs ⟨Written.self, [Written.vName]⟩ = none :=
  ⟨_, _, _, _, rfl, rfl, rfl, rfl, rfl, rfl⟩

end Xmix.Dsl
