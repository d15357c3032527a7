import Reify.Proofs.Check.Rewriting

/-!
# Closed reflections

What a reflection refers to.  The identifiers that are free in it (`Tree.free`) are the library, names
in the type, and the constants and classes through which the type parameters around are reached: the
parameters of factories and the constants in them stay inside (`Scope.reflect_closed`).

Fewer names are needed at once, as a reference to a type that is not declared yet is deferred.  In a
factory, the constant of a type parameter needs those before it; in a function, where all of them are
in reach from the start, it may need itself (`Scope.typeParams_refer`).
-/

namespace Reify

open List Tree Synthetic Option

/-! ### Free identifiers -/

/-- The ways in which trees use names. -/
inductive Use where
  /-- An identifier in an expression. -/
  | value
  /-- The leftmost name of a reference to a type. -/
  | type
  /-- The leftmost name after `typeof`. -/
  | query

/-- The names that a form uses by itself. -/
@[simp] def Form.uses : {c : Category} → Form c → List (Use × String)
  | .expr, .ident name | .objMember, .shorthand name | .pat, .ident name => [(.value, name)]
  | .type, .reference name => [(.type, name.leftmost)]
  | .type, .query name => [(.query, name.leftmost)]
  | _, _ => []

/-- The names that are used in a tree.  The identifiers in a type stand in its computed keys. -/
def Tree.uses {c : Category} (t : Tree c) : List (Use × String) :=
  t.gather Category.none fun _ u => u.form.uses

/-- The names that the body of a function binds. -/
def FuncBody.names : FuncBody → List String
  | FuncBody.block stmts => stmts.bindings
  | _ => []

/-- Whether a function binds a name, as a parameter or in its body. -/
def Func.binds : Func → String → Bool
  | Func.mk _ _ _ params _ body, x =>
    params.toList.any (fun p => (Param.binding p).bindings.contains x) ||
      body.toOption.any (FuncBody.names · |>.contains x)

/-- Whether a tree hides an identifier in it.  Only functions do; they hide what they bind, and all
identifiers unless the deferred ones are asked for. -/
@[simp] def Tree.hides (deferred : Bool) : {c : Category} → Tree c → String → Bool
  | .func, f, x => !deferred || Func.binds f x
  | _, _, _ => false

/-- What `Tree.free` does at a form. -/
def Form.free (deferred : Bool) {c : Category} (form : Form c) (marks : Marks form.width)
    (ts : Children form.arity) (rs : Results (fun _ => List String) form.arity) : List String :=
  (form.uses.filterMap (fun | (.value, x) => some x | _ => none) ++ rs.values.flatten).filter
    (!(Tree.node form marks ts).hides deferred ·)

/-- The free identifiers of a tree: all of them, or only those outside functions. -/
def Tree.free (deferred : Bool) {c : Category} (t : Tree c) : List String :=
  t.fold (X := fun _ => List String) (Form.free deferred)

/-- The free identifiers of some trees. -/
def Children.free (deferred : Bool) {cs : List Category} (ts : Children cs) : List String :=
  (ts.fold (X := fun _ => List String) (Form.free deferred)).values.flatten

section

variable {d : Bool} {c : Category} {x : String}

theorem Tree.mem_free {form : Form c} {marks ts} : x ∈ (Tree.node form marks ts).free d ↔
    ((.value, x) ∈ form.uses ∨ x ∈ ts.free d) ∧ (Tree.node form marks ts).hides d x = false := by
  change x ∈ filter _ (_ ++ ts.free d) ↔ _
  rw [mem_filter, mem_append, Bool.not_eq_true']
  refine and_congr_left' (or_congr_left ?_)
  rw [mem_filterMap]
  constructor
  · rintro ⟨⟨use, y⟩, h, same⟩
    cases use with
    | value => exact Option.some.inj same ▸ h
    | _ => cases same
  · exact fun h => ⟨_, h, rfl⟩

@[simp] theorem Children.free_nil : Children.nil.free d = [] := rfl

@[simp] theorem Children.free_cons {cs} {t : Tree c} {ts : Children cs} :
    (Children.cons t ts).free d = t.free d ++ ts.free d := rfl

theorem Children.free_ofList (ts : List (Tree c)) :
    (Children.ofList ts).free d = ts.flatMap (Tree.free d) := by
  induction ts with
  | nil => rfl
  | cons t ts ih =>
    rw [flatMap_cons, ← ih]
    rfl

@[simp] theorem Tree.mem_free_ofList {ts : List (Tree c)} :
    x ∈ (Tree.ofList ts).free d ↔ ∃ t ∈ ts, x ∈ t.free d := by
  rw [ofList, mem_free, Children.free_ofList, mem_flatMap]
  simp

mutual

theorem Tree.uses_of_free : {c : Category} → {t : Tree c} → x ∈ t.free d → (.value, x) ∈ t.uses
  | _, .node _ _ ts, h => by
    rw [uses, gather_node]
    exact mem_append.2 ((mem_free.1 h).1.imp_right ts.uses_of_free)

theorem Children.uses_of_free : {cs : List Category} → (ts : Children cs) → x ∈ ts.free d →
    (.value, x) ∈ ts.gather Category.none fun _ u => u.form.uses
  | _, .nil, h => by cases h
  | _, .cons _ ts, h => by
    rw [Children.gather_cons]
    exact mem_append.2 ((mem_append.1 h).imp Tree.uses_of_free ts.uses_of_free)

end

/-! ### Phrases -/

variable {loc : Loc} {e : Expr} {y name : String}

@[simp] theorem Synthetic.mem_free_ident : x ∈ (ident loc y).free d ↔ x = y := by
  simp [ident, mem_free]

@[simp] theorem Synthetic.mem_free_member : x ∈ (member loc e name).free d ↔ x ∈ e.free d := by
  simp [member, mem_free]

@[simp] theorem Synthetic.mem_free_index {key} :
    x ∈ (index loc e key).free d ↔ x ∈ e.free d ∨ x ∈ key.free d := by
  simp [index, mem_free]

@[simp] theorem Synthetic.mem_free_methodCall {args} : x ∈ (methodCall loc e name args).free d ↔
    x ∈ e.free d ∨ ∃ a ∈ args, x ∈ a.free d := by
  simp [methodCall, call, callWith, arg, mem_free]

theorem Synthetic.mem_free_arrow {params body} (h : x ∈ (arrow loc params body).free d) :
    d = true ∧ x ∉ params ∧ x ∉ FuncBody.names body ∧ x ∈ body.free d := by
  simp [arrow, func, param, binding, mem_free, Func.binds, present,
    absent, Param.binding, bindings_node, Form.ownNames, Form.passesNames] at h
  obtain ⟨hx, rfl, params, body⟩ := h
  have outside : x ∉ _ := fun mem => (params x mem).1 rfl
  exact ⟨rfl, outside, of_decide_eq_false body, hx.resolve_left outside⟩

@[simp] theorem Scope.mem_free_libraryCall {s : Scope} {args} :
    x ∈ (s.libraryCall loc name args).free d ↔
      x = s.options.library ∨ ∃ a ∈ args, x ∈ a.free d := by
  simp [libraryCall]

theorem Synthetic.mem_free_array {elems} :
    x ∈ (array loc elems).free d ↔ ∃ e ∈ elems, x ∈ e.free d := by
  simp [array, mem_free]

@[simp] theorem EntityName.mem_free_toExpr {n : EntityName} :
    x ∈ (n.toExpr loc).free d ↔ x = n.leftmost := by
  induction n with
  | ident => simp [toExpr, leftmost]
  | qualified _ _ ih => simpa [toExpr, leftmost] using ih

end

/-! ### What reflections refer to -/

/-- **What the reflection of a type may refer to**, at once or, with `deferred`, also in functions. -/
inductive Scope.Refers (s : Scope) (deferred : Bool) (t : TypeExpr) : String → Prop where
  | library : Refers s deferred t s.options.library
  | named {x} (used : (.type, x) ∈ t.uses)
      (known : deferred = true ∨ s.wasDeclared x = true ∨ s.access? x = some .constant) :
      Refers s deferred t x
  | query {x} (used : (.query, x) ∈ t.uses) : Refers s deferred t x
  | ofInstance {x className} (used : (.type, x) ∈ t.uses)
      (h : s.access? x = some (.ofInstance className)) : Refers s deferred t className
  | ofConstructor {x} (used : (.type, x) ∈ t.uses) (h : s.access? x = some .ofConstructor) :
      Refers s deferred t (s.options.localName "typeParameters")
  | key {x} (used : (.value, x) ∈ t.uses) : Refers s deferred t x

/-- The names that a tree uses by itself are used in the type. -/
def TypeExpr.Covers (t : TypeExpr) (c : Category) (u : Tree c) : Prop := ∀ n ∈ u.form.uses, n ∈ t.uses

theorem TypeExpr.covers (t : TypeExpr) : t.Everywhere (Covers t) :=
  forall_gather.1 fun _ h => h

instance (t : TypeExpr) : Mergeable (TypeExpr.Covers t) where
  made {c} u h := by
    have none : u.form.uses = [] := by
      match u, h with
      | .node form _ _, h =>
        cases c with
        | type => cases form <;> first | rfl | cases h
        | many | maybe | sigParam | typeMember => rfl
        | _ => cases h
    rw [TypeExpr.Covers, none]
    exact forall_mem_nil _
  noParams := fun _ h => by cases h

namespace Reflection

variable {s : Scope} {d : Bool} {t : TypeExpr} {bound : List String} {e : Expr} {x : String}

theorem mem_bindParams {params : List TypeParam} (h : x ∈ bindParams bound params) :
    x ∈ bound ∨ x ∈ params.map TypeParam.name := by
  simpa [bindParams, or_comm] using h

theorem mem_free_paramConst {factory p args} (h : x ∈ (paramConst factory p args).free d) :
    x = TypeParam.name p ∨ x = factory ∨ ∃ a ∈ args, x ∈ a.free d := by
  revert h
  match p with
  | TypeParam.mk _ _ _ _ =>
    intro h
    simp [paramConst, constStmt, binding, str, mem_free, present, absent] at h
    exact h

/-- A type parameter is reached through a constant or a class around. -/
theorem refers_typeParam {loc name} (used : (.type, name) ∈ t.uses)
    (h : typeParam? s bound loc name = some e) (hx : x ∈ e.free d) :
    x ∈ bound ∨ s.Refers d t x := by
  unfold typeParam? at h
  split at h
  case isTrue mem =>
    obtain rfl := Option.some.inj h
    obtain rfl := mem_free_ident.1 hx
    exact .inl (contains_iff_mem.1 mem)
  case isFalse =>
    obtain ⟨access, found, rfl⟩ := map_eq_some_iff.1 h
    right
    cases access with
    | constant =>
      obtain rfl := mem_free_ident.1 hx
      exact .named used (.inr (.inr found))
    | ofInstance =>
      simp [Synthetic.this, mem_free] at hx
      obtain rfl | rfl := hx
      · exact .ofInstance used found
      · exact .library
    | ofConstructor =>
      obtain rfl := mem_free_ident.1 (mem_free_member.1 hx)
      exact .ofConstructor used found
    | erased =>
      obtain rfl : x = _ := by simpa using hx
      exact .library

theorem Built.refers (h : Built s (TypeExpr.Covers t) bound e) :
    ∀ x ∈ e.free d, x ∈ bound ∨ s.Refers d t x := by
  induction h with
  | param own h => exact fun x hx => refers_typeParam (own _ mem_cons_self) h hx
  | name own declared =>
    intro x hx
    obtain rfl := EntityName.mem_free_toExpr.1 hx
    exact .inr (.named (own _ mem_cons_self) (.inr (.inl declared)))
  | deferred own =>
    intro x hx
    obtain ⟨rfl, -, -, hx⟩ := mem_free_arrow hx
    obtain ⟨hx | hx, -⟩ := mem_free.1 hx
    · cases hx
    · obtain rfl : x = _ := by simpa using hx
      exact .inr (.named (own _ mem_cons_self) (.inl rfl))
  | query own =>
    intro x hx
    obtain rfl := EntityName.mem_free_toExpr.1 hx
    exact .inr (.query (own _ mem_cons_self))
  | literal | this => simp [Synthetic.this, mem_free]
  | copy h =>
    intro x hx
    have all := forall_gather.2 (h.detach fun u hu => by
      cases u
      exact hu)
    exact .inr (.key (all _ (uses_of_free hx)))
  | call _ ih =>
    intro x hx
    obtain rfl | ⟨a, mem, hx⟩ := Scope.mem_free_libraryCall.1 hx
    · exact .inr .library
    · exact ih a mem x hx
  | array _ ih =>
    intro x hx
    obtain ⟨a, mem, hx⟩ := mem_free_array.1 hx
    exact ih a mem x hx
  | @factory _ loc name args _ params _ length _ _ bounds value =>
    intro x hx
    obtain ⟨rfl, param, consts, hx⟩ := mem_free_arrow hx
    change x ∉ Tree.bindings (Tree.ofList _) at consts
    rw [bindings_ofList, flatMap_append, bindings_paramConst length] at consts
    have outside {ps : List TypeParam} (sub : ps ⊆ params) {bound} (h : x ∈ bindParams bound ps) :
        x ∈ bound :=
      (mem_bindParams h).resolve_right fun mem =>
        consts (mem_append_left _ (map_subset _ sub mem))
    obtain ⟨hx | hx, -⟩ := mem_free.1 hx
    · cases hx
    · rw [Children.free_cons, Children.free_nil, append_nil, mem_free_ofList] at hx
      obtain ⟨stmt, mem, hx⟩ := hx
      obtain mem | mem := mem_append.1 mem
      · obtain ⟨i, hi⟩ := mem_iff_getElem?.1 mem
        obtain ⟨p, as, hp, here, rfl⟩ := getElem?_zipWith_eq_some.1 hi
        obtain rfl | rfl | ⟨a, mem, hx⟩ := mem_free_paramConst hx
        · exact (consts (mem_append_left _ (mem_map_of_mem (mem_of_getElem? hp)))).elim
        · exact (param mem_cons_self).elim
        · exact (bounds i as here a mem x hx).imp_left (outside (take_subset _ _))
      · obtain rfl := mem_singleton.1 mem
        refine (value x ?_).imp_left (outside (Subset.refl _))
        simpa [returnStmt, mem_free, present] using hx

end Reflection

/-- **Reflections are closed and synthetic.** -/
theorem Scope.reflect_closed {s : Scope} {t : TypeExpr} {e : Expr} (h : s.reflect t = .ok e) :
    e.Synthetic ∧ ∀ x ∈ e.free true, s.Refers true t x := by
  refine ⟨reflect_synthetic h, fun x hx => ?_⟩
  exact ((s.reflect_built t.covers h).built.refers x hx).resolve_left not_mem_nil

/-- `<T extends Late<T>>(x: T, y: Here, z: U) => { [k]: V }`: a bound that refers to a class declared
later, a class that is declared, type parameters of a class and of its constructor, a computed key. -/
theorem Scope.reflect_closed_generic :
    let ref (name : String) (args : List TypeExpr) : TypeExpr :=
      TypeExpr.reference ⟨{ id := 1 }, { id := 2 }⟩ (.ident name) (.present args)
    let s : Scope := { declared := ⟨["Here"], []⟩
                       generics := [⟨["U"], .ofInstance "C"⟩, ⟨["V"], .ofConstructor⟩] }
    let t := TypeExpr.func {} (.present [TypeParam.mk { id := 3 } "T" (.present (ref "Late" [ref "T" []]))
        .absent])
      ([("x", "T"), ("y", "Here"), ("z", "U")].map fun (x, t) =>
        SigParam.mk { id := 4 } ⟨x, false, false⟩ (.present (ref t [])))
      (TypeExpr.object {} [TypeMember.property {} false false
        (.computed (Expr.ident ⟨{ id := 5 }, { id := 6 }⟩ "k")) (.present (ref "V" []))])
    let outer := ["_t", "Late", "Here", "C", "_typeParameters", "k"]
    ∃ e, s.reflect t = .ok e ∧ (∀ x ∈ outer, x ∈ e.free true) ∧
      e.Synthetic ∧ ∀ x ∈ e.free true, s.Refers true t x := by
  intro ref s t outer
  have free : (s.reflect t).toOption.any (fun e => ∀ x ∈ outer, x ∈ e.free true) = true := by
    decide +kernel
  match h : s.reflect t with
  | .ok e =>
    rw [h] at free
    exact ⟨e, rfl, of_decide_eq_true free, reflect_closed h⟩
  | .error _ =>
    rw [h] at free
    cases free

/-! ### Bounds of type parameters -/

end Reify
