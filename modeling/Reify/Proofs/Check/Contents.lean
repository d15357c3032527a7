import Reify.Proofs.Check.Plans
import Reify.Proofs.Syntax.Subtrees

/-!
# What plans are made of

The statements that a plan adds to a function or to a constructor come in few kinds.  `Opens` and
`Constructs` list them, with the types whose reflections they hold and the scope in which those were
made.  Whatever has to be known of added code is shown for each of the kinds.
-/

namespace Reify

open List Tree Children

/-! ### Functions -/

/-- The statements added to the start of the function `f`, with reflections made in the scope
`s`. -/
inductive Opens (s : Scope) (f : Func) : Stmt → Prop where
  | typeConst {loc name args}
      (h : ∀ e ∈ args, ∃ t : TypeExpr, t ∈ f.types ∧ s.reflect t = .ok e) :
      Opens s f (Synthetic.constStmt loc name
        (s.libraryCall loc "typeParameter" (Synthetic.str loc name :: args)))
  | result {loc loc' name e} {t : TypeExpr} (ht : t ∈ f.types) (h : s.reflect t = .ok e) :
      Opens s f (Synthetic.constStmt loc name (s.libraryCall loc' "return" [e]))
  | check {loc name e rest optional} {t : TypeExpr} (ht : t ∈ f.types)
      (h : s.reflect t = .ok e) :
      Opens s f (Synthetic.exprStmt loc (assertion loc
        (Reflection.parameter s loc name e rest optional) [Synthetic.ident loc name]))

section

variable {s : Scope} {t : TypeExpr}

theorem TypeParam.mem_types {p : TypeParam} (h : t ∈ p.bound?.toList) : t ∈ p.types := by
  match p, h with
  | TypeParam.mk _ _ .absent _, h => cases h
  | TypeParam.mk _ _ (.present _) _, h =>
    rw [mem_singleton.1 h]
    exact mem_subtrees_of_parts rfl
      (mem_subtrees_head (mem_subtrees_present rfl (mem_subtrees_self rfl _)))

theorem Param.mem_types {p : Param} {name} (h : p.checked? = some (name, t)) : t ∈ p.types := by
  match p with
  | Param.mk _ _ _ _ type _ =>
    rw [Param.checked?] at h
    split at h
    case isTrue => cases h
    case isFalse =>
      obtain ⟨_, -, h⟩ := Option.bind_eq_some_iff.1 h
      obtain ⟨_, typed, same⟩ := Option.map_eq_some_iff.1 h
      obtain ⟨rfl, rfl⟩ := Prod.mk.inj same
      rw [checked?_eq_some typed]
      exact mem_subtrees_of_parts rfl (mem_subtrees_tail (mem_subtrees_tail
        (mem_subtrees_head (mem_subtrees_present rfl (mem_subtrees_self rfl _)))))

variable {role : Role} {f : Func} {plan : FuncPlan}

/-- What a function is checked with is made of the types it mentions. -/
theorem bodyPlanOf_opens (h : bodyPlanOf s role f = .ok plan) :
    (∀ stmt ∈ plan.prologue, Opens (s.withGenerics (Func.typeParamNames f) .constant) f stmt) ∧
      ∀ r ∈ plan.result, ∃ loc e, ∃ t : TypeExpr, t ∈ f.types ∧
        (s.withGenerics (Func.typeParamNames f) .constant).reflect t = .ok e ∧
        r = (s.withGenerics (Func.typeParamNames f) .constant).libraryCall loc "return" [e] := by
  have opening := bodyPlanOf_opening h
  match f, opening with
  | Func.mk mark form typeParams params result body, opening =>
    generalize s.withGenerics _ .constant = s' at opening ⊢
    have returned : ∀ r ∈ plan.result, ∃ loc e, ∃ t : TypeExpr,
        t ∈ (Func.mk mark form typeParams params result body).types ∧ s'.reflect t = .ok e ∧
        r = s'.libraryCall loc "return" [e] := by
      intro r hr
      obtain ⟨t, e, returns, reflected, rfl⟩ := opening.returned hr
      obtain ⟨-, -, -, -, rfl, -⟩ := returns
      exact ⟨_, e, t, mem_subtrees_of_parts rfl (mem_subtrees_tail (mem_subtrees_tail
        (mem_subtrees_head (mem_subtrees_present rfl (mem_subtrees_self rfl t))))), reflected, rfl⟩
    refine ⟨?_, returned⟩
    rw [FuncPlan.prologue, forall_mem_append, forall_mem_append]
    refine ⟨⟨fun stmt hs => ?_, fun stmt hs => ?_⟩, fun stmt hs => ?_⟩
    · obtain ⟨p, hp, _, ⟨bounds, reflected, rfl⟩, rfl⟩ := exists_of_forall₂ opening.consts hs
      refine .typeConst fun e he => ?_
      obtain ⟨t, ht, reflected⟩ := exists_of_forall₂ reflected he
      exact ⟨t, mem_subtrees_of_parts rfl (mem_subtrees_head
        (subtrees_of_mem_toLists rfl rfl hp (TypeParam.mem_types ht))), reflected⟩
    · obtain ⟨r, hr, rfl⟩ := Option.map_eq_some_iff.1 (Option.mem_toList.1 hs)
      obtain ⟨loc, e, t, ht, reflected, rfl⟩ := returned r hr
      exact .result ht reflected
    · obtain ⟨p, hp, name, t, e, typed, reflected, rfl⟩ := exists_of_forall₂ opening.asserts hs
      have param := Param.mem_types typed
      match p, hp, param with
      | Param.mk _ _ _ _ _ _, hp, param =>
        refine .check (mem_subtrees_of_parts rfl (mem_subtrees_tail
          (mem_subtrees_head (subtrees_toList rfl params ?_)))) reflected
        exact mem_flatMap.2 ⟨_, mem_of_mem_filter hp, param⟩

end

/-! ### Members of classes -/

section

variable {className : Option String} {names : List String} {w w' : Walker}

theorem PlansMember.scope_eq {m plan} (h : PlansMember className names w m plan w') :
    w'.context.scope = w.context.scope := by
  cases h with
  | func _ _ _ effect => exact effect.scope
  | _ => rfl

theorem PlansMembers.scope_eq {ms plans} (h : PlansMembers className names w ms plans w') :
    w'.context.scope = w.context.scope := by
  induction h with
  | nil => rfl
  | cons head _ ih => rw [ih, head.scope_eq]

end

/-! ### Constructors -/

/-- The expression is a reflection of a type that the class mentions, made in a scope in which the
type parameters of the class are not reached through an object. -/
def ReflectedBeside (s : Scope) (decl : ClassDecl) (e : Expr) : Prop :=
  ∃ names access, ∃ t : TypeExpr, (∀ className, access ≠ .ofInstance className) ∧
    t ∈ decl.types ∧ (s.withGenerics names access).reflect t = .ok e

/-- The statements added to the constructor of a class. -/
inductive Constructs (s : Scope) (decl : ClassDecl) : Stmt → Prop where
  | implemented {loc e} (h : ReflectedBeside s decl e) :
      Constructs s decl (Synthetic.exprStmt loc (assertion loc e [Synthetic.this loc]))
  | params {loc holder entries}
      (h : ∀ entry ∈ entries, ∃ loc name args,
        entry.2 = s.libraryCall loc "typeParameter" (Synthetic.str loc name :: args) ∧
        ∀ e ∈ args, ReflectedBeside s decl e) :
      Constructs s decl (Synthetic.constStmt loc holder (Synthetic.object loc entries))
  | store {loc className holder} :
      Constructs s decl (Synthetic.exprStmt loc (Synthetic.assign loc
        (Synthetic.index loc (Synthetic.this loc)
          (Synthetic.index loc (Synthetic.ident loc className) (parametersSymbol s loc)))
        (Synthetic.ident loc holder)))
  | bind {loc args} (h : ∀ e ∈ args, ReflectedBeside s decl e) :
      Constructs s decl (Synthetic.exprStmt loc
        (s.libraryCall loc "bindTypeParameters" (Synthetic.this loc :: args)))

theorem memberAccess_constructor (className : Option String) (name : String) :
    memberAccess className false true ≠ .ofInstance name := by
  cases className <;> simp [memberAccess]

section

variable {s : Scope} {decl : ClassDecl}

theorem ClassDecl.KeepsParams.constructs {before after} (h : decl.KeepsParams s before after) :
    (∀ stmt ∈ before, Constructs s decl stmt) ∧ ∀ stmt ∈ after, Constructs s decl stmt := by
  match decl, h with
  | ClassDecl.mk _ _ _ _ typeParams _ baseArgs _ _, .plain _ => exact ⟨nofun, nofun⟩
  | ClassDecl.mk mark _ _ _ typeParams _ baseArgs _ _, .generic _ params base =>
    refine ⟨forall_mem_singleton.2 (.params fun entry hentry => ?_),
      forall_mem_cons.2 ⟨.store, ?_⟩⟩
    · obtain ⟨p, hp, -, bounds, reflected, same⟩ := exists_of_forall₂ params hentry
      rw [s.libraryCall_withGenerics] at same
      refine ⟨mark.loc, _, bounds, same, fun e he => ?_⟩
      obtain ⟨t, ht, reflected⟩ := exists_of_forall₂ reflected he
      exact ⟨_, .erased, t, by simp, mem_subtrees_of_parts rfl (mem_subtrees_tail
        (mem_subtrees_tail (mem_subtrees_head
          (subtrees_of_mem_toLists rfl rfl hp (TypeParam.mem_types ht))))), reflected⟩
    · split
      · exact nofun
      · refine forall_mem_singleton.2 (.bind fun e he => ?_)
        obtain ⟨t, ht, reflected⟩ := exists_of_forall₂ base he
        exact ⟨_, .ofConstructor, t, by simp, mem_subtrees_of_parts rfl (mem_subtrees_tail
          (mem_subtrees_tail (mem_subtrees_tail (mem_subtrees_tail (mem_subtrees_head
            (subtrees_of_mem_toLists rfl rfl ht (mem_subtrees_self rfl t))))))), reflected⟩

theorem ClassDecl.ChecksImplemented.constructs {checks} (h : decl.ChecksImplemented s checks) :
    ∀ stmt ∈ checks, Constructs s decl stmt := by
  intro stmt hs
  obtain ⟨t, ht, e, reflected, rfl⟩ := exists_of_forall₂ h hs
  match decl, ht, reflected with
  | ClassDecl.mk _ _ _ _ _ _ _ implemented _, ht, reflected =>
    have all : t ∈ implemented.types := subtrees_toList rfl implemented
      (mem_flatMap.2 ⟨t, mem_of_mem_filter ht, mem_subtrees_self rfl t⟩)
    exact .implemented ⟨_, _, t, memberAccess_constructor _, mem_subtrees_of_parts rfl
      (mem_subtrees_tail (mem_subtrees_tail (mem_subtrees_tail (mem_subtrees_tail
        (mem_subtrees_tail (mem_subtrees_head all)))))), reflected⟩

/-- What the constructor of a class gets is made of the types that the class mentions. -/
theorem planFinish_constructs {reflection finish} (h : planFinish s reflection decl = .ok finish) :
    (∀ ps ∈ finish.constructor.params,
        Constructs s decl ps.before ∧ ∀ stmt ∈ ps.after, Constructs s decl stmt) ∧
      ∀ stmt ∈ finish.constructor.implemented, Constructs s decl stmt := by
  obtain ⟨keeps, checks, -, -⟩ := planFinish_constructor h
  obtain ⟨before, after⟩ := keeps.constructs
  refine ⟨fun ps hps => ?_, checks.constructs⟩
  have mem := Option.mem_toList.2 hps
  exact ⟨before _ (mem_map_of_mem mem), fun stmt hs => after stmt (mem_flatMap.2 ⟨ps, mem, hs⟩)⟩

end

end Reify
