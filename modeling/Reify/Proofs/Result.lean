import Mathlib.Data.List.Forall2
import Reify.Check.Function

/-!
# Computations that may fail

What a successful computation says about its steps, and what an `Attempt` answers.  Nothing reads
the log, so the answer of an `Attempt` is the same whatever the log holds; `Attempt.Answers` names
it as a computation that writes no log.
-/

namespace Reify

open List

/-! ### Success -/

section

variable {ε α β : Type}

theorem bind_eq_ok {x} {f : α → Except ε β} {b} :
    x >>= f = .ok b ↔ ∃ a, x = .ok a ∧ f a = .ok b := by
  cases x with
  | _ => simp [bind, Except.bind]

theorem bind_eq_error {x} {f : α → Except ε β} {u} :
    x >>= f = .error u ↔ x = .error u ∨ ∃ a, x = .ok a ∧ f a = .error u := by
  cases x with
  | _ => simp [bind, Except.bind]

theorem pure_eq_ok {a b} : (pure a : Except ε α) = .ok b ↔ a = b := by
  simp [pure, Except.pure]

/-- A step followed by an answer. -/
theorem bind_pure_eq_ok {x} {f : α → β} {b} :
    (x >>= fun a => pure (f a) : Except ε β) = .ok b ↔ ∃ a, x = .ok a ∧ f a = b := by
  simp only [bind_eq_ok, pure_eq_ok]

theorem bind_pure_eq_error {x} {f : α → β} {u} :
    (x >>= fun a => pure (f a) : Except ε β) = .error u ↔ x = .error u := by
  cases x with
  | _ => simp [bind, Except.bind, pure, Except.pure]

theorem map_eq_ok {x : Except ε α} {f} {b : β} : f <$> x = .ok b ↔ ∃ a, x = .ok a ∧ f a = b := by
  cases x with
  | _ => simp [Functor.map, Except.map]

theorem map_eq_error {x : Except ε α} {f : α → β} {u} : f <$> x = .error u ↔ x = .error u := by
  cases x with
  | _ => simp [Functor.map, Except.map]

/-- Each element has its own result. -/
theorem mapM_eq_ok {f : α → Except ε β} {xs ys} :
    xs.mapM f = .ok ys ↔ Forall₂ (fun x y => f x = .ok y) xs ys := by
  induction xs generalizing ys with
  | nil =>
    rw [mapM_nil, pure_eq_ok, forall₂_nil_left_iff]
    exact eq_comm
  | cons x xs ih =>
    rw [mapM_cons, bind_eq_ok, forall₂_cons_left_iff]
    simp only [bind_eq_ok, pure_eq_ok, ih]
    constructor
    · rintro ⟨y, hy, ys, hys, rfl⟩
      exact ⟨y, ys, hy, hys, rfl⟩
    · rintro ⟨y, ys, hy, hys, rfl⟩
      exact ⟨y, hy, ys, hys, rfl⟩

/-- What an element is related to. -/
theorem exists_of_forall₂ {r} {xs : List α} {ys} (h : Forall₂ r xs ys) {y : β} (hy : y ∈ ys) :
    ∃ x ∈ xs, r x y := by
  induction h with
  | nil => cases hy
  | @cons x z xs ys hxz _ ih =>
    rcases mem_cons.1 hy with rfl | hy
    · exact ⟨x, mem_cons_self, hxz⟩
    · obtain ⟨x', hx', related⟩ := ih hy
      exact ⟨x', mem_cons_of_mem _ hx', related⟩

/-- The result of an element is among the results. -/
theorem mem_of_mapM {f : α → Except ε β} {xs : List α} {ys} (h : xs.mapM f = .ok ys) {x}
    (hx : x ∈ xs) : ∃ y ∈ ys, f x = .ok y :=
  exists_of_forall₂ (mapM_eq_ok.1 h).flip hx

/-- What a result comes from. -/
theorem exists_of_mapM {f : α → Except ε β} {xs : List α} {ys} (h : xs.mapM f = .ok ys) {y}
    (hy : y ∈ ys) : ∃ x ∈ xs, f x = .ok y :=
  exists_of_forall₂ (mapM_eq_ok.1 h) hy

/-- What holds of each result holds of all of them. -/
theorem forall_of_mapM {f : α → Except ε β} {xs : List α} {ys} {p : β → Prop}
    (hf : ∀ x ∈ xs, ∀ y, f x = .ok y → p y) (h : xs.mapM f = .ok ys) : ∀ y ∈ ys, p y := by
  intro y hy
  obtain ⟨x, hx, made⟩ := exists_of_mapM h hy
  exact hf x hx y made

/-- A list fails with one of its elements. -/
theorem exists_of_mapM_error {f : α → Except ε β} {xs : List α} {u} (h : xs.mapM f = .error u) :
    ∃ x ∈ xs, f x = .error u := by
  induction xs with
  | nil => cases h
  | cons x xs ih =>
    rw [mapM_cons] at h
    rcases bind_eq_error.1 h with h | ⟨y, -, h⟩
    · exact ⟨x, mem_cons_self, h⟩
    · obtain ⟨z, hz, failed⟩ := ih (bind_pure_eq_error.1 h)
      exact ⟨z, mem_cons_of_mem _ hz, failed⟩

theorem exists_of_filterMapM_error {f : α → Except ε (Option β)} {xs : List α} {u}
    (h : xs.filterMapM f = .error u) : ∃ x ∈ xs, f x = .error u := by
  induction xs with
  | nil => cases h
  | cons x xs ih =>
    rw [filterMapM_cons] at h
    rcases bind_eq_error.1 h with h | ⟨y, -, h⟩
    · exact ⟨x, mem_cons_self, h⟩
    · have rest : xs.filterMapM f = .error u := by
        cases y with
        | none => exact h
        | some y => exact map_eq_error.1 h
      obtain ⟨z, hz, failed⟩ := ih rest
      exact ⟨z, mem_cons_of_mem _ hz, failed⟩

/-- Each element has its own result, which may be that it is left out. -/
theorem filterMapM_eq_ok {f : α → Except ε (Option β)} {xs : List α} {ys} :
    xs.filterMapM f = .ok ys ↔ ∃ zs, xs.mapM f = .ok zs ∧ ys = zs.filterMap id := by
  induction xs generalizing ys with
  | nil =>
    simp only [filterMapM_nil, mapM_nil, pure_eq_ok]
    simp [eq_comm]
  | cons x xs ih =>
    rw [filterMapM_cons, mapM_cons, bind_eq_ok]
    simp only [bind_eq_ok, pure_eq_ok]
    constructor
    · rintro ⟨z, hz, h⟩
      cases z with
      | some z =>
        obtain ⟨ys, hys, rfl⟩ := map_eq_ok.1 h
        obtain ⟨zs, hzs, rfl⟩ := ih.1 hys
        exact ⟨some z :: zs, ⟨some z, hz, zs, hzs, rfl⟩, by simp⟩
      | _ =>
        obtain ⟨zs, hzs, rfl⟩ := ih.1 h
        exact ⟨none :: zs, ⟨none, hz, zs, hzs, rfl⟩, by simp⟩
    · rintro ⟨_, ⟨z, hz, zs, hzs, rfl⟩, rfl⟩
      refine ⟨z, hz, ?_⟩
      have rest := ih.2 ⟨zs, hzs, rfl⟩
      cases z with
      | none => exact rest
      | some z => exact map_eq_ok.2 ⟨_, rest, by simp⟩

end

/-- Steps in a row, taken apart. -/
theorem run_bind {σ α β : Type} {act} {f : α → StateM σ β} {s s' b}
    (h : (act >>= f).run s = (b, s')) : ∃ a s₁, act.run s = (a, s₁) ∧ (f a).run s₁ = (b, s') :=
  ⟨_, _, rfl, h⟩

/-! ### Answers -/

namespace Attempt

variable {α β : Type}

/-- The answer of a computation, whatever has been written to the log before. -/
def Answers (act : Attempt α) (r : Except Unsupported α) : Prop := ∀ log, (act.run log).1 = r

theorem answers_pure (a : α) : Answers (pure a) (.ok a) := fun _ => rfl

theorem answers_ofExcept (r : Except Unsupported α) : Answers (ofExcept r) r := fun _ => rfl

theorem answers_log (line : Log.Line) : Answers (log line) (.ok ()) := fun _ => rfl

/-- The answer of two computations in a row. -/
theorem Answers.bind {act} {f : α → Attempt β} {r g} (h : act.Answers r)
    (hf : ∀ a, (f a).Answers (g a)) : (act >>= f).Answers (r >>= g) := by
  intro log
  have answer := h log
  change (StateT.run (ExceptT.bindCont f (act.run log).1) (act.run log).2).1 = _
  rw [answer]
  cases r with
  | error u => rfl
  | ok a => exact hf a _

theorem Answers.map {act : Attempt α} {r} (f : α → β) (h : act.Answers r) :
    (f <$> act).Answers (f <$> r) := by
  rw [map_eq_pure_bind, map_eq_pure_bind]
  exact h.bind fun a => answers_pure (f a)

theorem answers_forM {f} (h : ∀ a, (f a).Answers (.ok ⟨⟩)) (xs : List α) :
    Answers (xs.forM f) (.ok ⟨⟩) := by
  induction xs with
  | nil => exact answers_pure PUnit.unit
  | cons x xs ih => exact (h x).bind fun _ => ih

end Attempt

end Reify
