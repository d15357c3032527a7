import Reify.Proofs.Walk.Rules
import Reify.Proofs.Syntax.Everywhere

/-!
# What holds everywhere in a task

A predicate on trees is followed through the walk: `Task.Everywhere` says that it holds everywhere in
what is walked, and `Task.OutEverywhere` that it holds everywhere in what comes out.
-/

namespace Reify

open List

namespace Task

variable (P : (c : Category) → Tree c → Prop)

/-- The predicate holds everywhere in what is walked. -/
def Everywhere : Task → Prop
  | node t _ | inner t _ | child _ t => t.Everywhere P
  | parts _ ts => ts.Everywhere P
  | each _ ts => ∀ t ∈ ts, t.Everywhere P
  | stmts ss => ∀ s ∈ ss, s.Everywhere P

/-- The predicate holds everywhere in what comes out. -/
def OutEverywhere : (k : Task) → k.Out → Prop
  | node _ _, (t', fs) => t'.Everywhere P ∧ ∀ f ∈ fs, f.Everywhere P
  | inner _ _, t' | child _ _, t' => t'.Everywhere P
  | parts _ _, ts' => ts'.Everywhere P
  | each _ _, ts' => ∀ t ∈ ts', t.Everywhere P
  | stmts _, out => ∀ s ∈ out, s.Everywhere P

end Task

/-! ### Units stand alone -/

/-- Categories of what stands inside a unit. -/
def Category.isInner : Category → Bool
  | .unit => false
  | .many c | .maybe c => c.isInner
  | _ => true

theorem Form.isInner_arity {c} (hc : c.isInner = true) (form : Form c) :
    ∀ d ∈ form.arity, d.isInner = true := by
  cases c with
  | unit => cases hc
  | many c => exact fun d hd => eq_of_mem_replicate hd ▸ hc
  | maybe c =>
    cases form with
    | false => exact nofun
    | true => exact forall_mem_singleton.2 hc
  | stmt | expr | type | pat | typeMember | typeKey | objMember | memberKey | memberVal | arrayElem
  | funcBody | forInit | forTarget | importNames => cases form <;> simp [Category.isInner]
  | _ => simp [Category.isInner]

mutual

/-- Inside a unit there is no other. -/
theorem Tree.everywhere_inner : {c : Category} → (t : Tree c) → c.isInner = true →
    t.Everywhere fun c _ => c.isInner = true
  | _, .node form _ ts, hc =>
    Tree.everywhere_node.2 ⟨hc, ts.everywhere_inner (form.isInner_arity hc)⟩

theorem Children.everywhere_inner : {cs : List Category} → (ts : Children cs) →
    (∀ c ∈ cs, c.isInner = true) → ts.Everywhere fun c _ => c.isInner = true
  | _, .nil, _ => Children.everywhere_nil
  | _, .cons t ts, h => by
    rw [forall_mem_cons] at h
    exact Children.everywhere_cons.2 ⟨t.everywhere_inner h.1, ts.everywhere_inner h.2⟩

end

end Reify
