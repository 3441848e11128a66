import TemplateCompiler.Proofs.Code.Erasure
import TemplateCompiler.Proofs.Template.Tree

/-!
# Compilations side by side

Two compilations of one template correspond when they run in step: both fail
with the same error, or both succeed and what they made matches. What "matches"
means grows as a compilation goes on, because a unit that is finished can be
called from then on. A `Correspondence` therefore has *worlds*: it says which
sessions agree in a world, and which calls match there. Matching code still
matches in every later world.

`Related` is the relation between two compile steps, and it is kept by
sequencing (`Related.bind`). A step that hands out locations or writes to the
log never matters.
-/

namespace TemplateCompiler

/-- Two sessions with the same registry, units and names. -/
structure Session.SameUnits (s t : Session) : Prop where
  registry : t.registry = s.registry
  taken : t.taken = s.taken
  units : t.units = s.units

theorem Session.SameUnits.refl (s : Session) : s.SameUnits s := ⟨rfl, rfl, rfl⟩

theorem Session.SameUnits.trans {s t u : Session} (h : s.SameUnits t) (h' : t.SameUnits u) :
    s.SameUnits u :=
  ⟨h'.registry.trans h.registry, h'.taken.trans h.taken, h'.units.trans h.units⟩

/-- **A correspondence between two compilations.** -/
structure Correspondence where
  /-- What has been compiled so far. -/
  World : Type
  /-- More has been compiled. -/
  Later : World → World → Prop
  refl : ∀ w, Later w w
  trans : ∀ {u v w}, Later u v → Later v w → Later u w
  /-- The sessions that agree in a world. -/
  Agree : World → Session → Session → Prop
  /-- Locations and the log do not matter. -/
  agree_of_same : ∀ {w s t s' t'}, Agree w s t → s.SameUnits s' → t.SameUnits t' →
    Agree w s' t'
  /-- Code in place and the call that stands for it. -/
  Calls : World → Code → Code → Prop
  calls_mono : ∀ {v w c d}, Later v w → Calls v c d → Calls w c d
  /-- The includes that have been compiled. -/
  Met : World → Inclusion → Prop
  met_mono : ∀ {v w i}, Later v w → Met v i → Met w i

namespace Compile

variable {α β γ δ : Type}

/-- How a step ends. -/
abbrev outcome (m : Compile α) (s : Session) : Except CompileError α × Session := m.run.run s

theorem outcome_bind_ok {m : Compile α} {f : α → Compile β} {s t : Session} {a : α}
    (h : m.outcome s = (.ok a, t)) : (m >>= f).outcome s = (f a).outcome t := by
  show (ExceptT.bindCont f (m.outcome s).1).run (m.outcome s).2 = _
  rw [h]
  rfl

theorem outcome_bind_error {m : Compile α} {f : α → Compile β} {s t : Session}
    {e : CompileError} (h : m.outcome s = (.error e, t)) :
    (m >>= f).outcome s = (.error e, t) := by
  show (ExceptT.bindCont f (m.outcome s).1).run (m.outcome s).2 = _
  rw [h]
  rfl

/-- Steps in sequence succeed only if each of them does. -/
theorem ok_of_outcome_bind {m : Compile α} {f : α → Compile β} {s u : Session} {b : β}
    (h : (m >>= f).outcome s = (.ok b, u)) :
    ∃ a t, m.outcome s = (.ok a, t) ∧ (f a).outcome t = (.ok b, u) := by
  rcases run : m.outcome s with ⟨e | a, t⟩
  · rw [outcome_bind_error run] at h
    cases h
  · exact ⟨a, t, rfl, outcome_bind_ok run ▸ h⟩

/-- **A quiet step** succeeds, and touches no more of a session than its count
of locations and its log. -/
def Quiet (m : Compile α) (P : α → Prop) : Prop :=
  ∀ s, ∃ a t, m.outcome s = (.ok a, t) ∧ s.SameUnits t ∧ P a

namespace Quiet

theorem pure {P : α → Prop} {a : α} (h : P a) : Quiet (Pure.pure a) P :=
  fun s => ⟨a, s, rfl, .refl s, h⟩

theorem bind {P : α → Prop} {Q : β → Prop} {m : Compile α} {f : α → Compile β}
    (h : Quiet m P) (next : ∀ a, P a → Quiet (f a) Q) : Quiet (m >>= f) Q := by
  intro s
  obtain ⟨a, t, run, same, p⟩ := h s
  obtain ⟨b, u, run', same', q⟩ := next a p t
  exact ⟨b, u, (outcome_bind_ok run).trans run', same.trans same', q⟩

theorem locating {P : α → Prop} {x : StateM Nat α} (h : ∀ n, P (x n).1) :
    Quiet (Compile.locating x) P :=
  fun s => ⟨(x s.located).1, _, rfl, ⟨rfl, rfl, rfl⟩, h s.located⟩

theorem debug (message : Bytes) (fields : List (Bytes × Bytes)) :
    Quiet (Compile.debug message fields) fun _ => True :=
  fun _ => ⟨(), _, rfl, ⟨rfl, rfl, rfl⟩, trivial⟩

end Quiet

end Compile

namespace Correspondence

variable {α β γ δ : Type} (K : Correspondence)

/-- Two ends of steps that started in the world `w`. -/
def Ends (w : K.World) (Q : K.World → α → β → Prop) :
    Except CompileError α × Session → Except CompileError β × Session → Prop
  | (.ok a, s), (.ok b, t) => ∃ v, K.Later w v ∧ K.Agree v s t ∧ Q v a b
  | (.error e, _), (.error e', _) => e = e'
  | _, _ => False

variable {K} in
/-- Ends may be weakened, and read from an earlier world. -/
theorem Ends.imp {v w : K.World} {Q R : K.World → α → β → Prop}
    {x : Except CompileError α × Session} {y : Except CompileError β × Session}
    (h : K.Ends v Q x y) (earlier : K.Later w v)
    (weaken : ∀ u a b, K.Later v u → Q u a b → R u a b) : K.Ends w R x y := by
  obtain ⟨e | a, s⟩ := x <;> obtain ⟨e' | b, t⟩ := y
  · exact h
  · exact h.elim
  · exact h.elim
  · obtain ⟨u, later, agree, q⟩ := h
    exact ⟨u, K.trans earlier later, agree, weaken u a b later q⟩

/-- **Related steps**: from sessions that agree they fail alike, or they
succeed with results that match in a later world. -/
def Related (w : K.World) (Q : K.World → α → β → Prop) (m : Compile α) (m' : Compile β) :
    Prop :=
  ∀ s t, K.Agree w s t → K.Ends w Q (m.outcome s) (m'.outcome t)

variable {K} {w : K.World}

namespace Related

theorem pure {Q : K.World → α → β → Prop} {a : α} {b : β} (h : Q w a b) :
    K.Related w Q (Pure.pure a) (Pure.pure b) :=
  fun _ _ agree => ⟨w, K.refl w, agree, h⟩

theorem throw {Q : K.World → α → β → Prop} (e : CompileError) :
    K.Related w Q (MonadExcept.throw e : Compile α) (MonadExcept.throw e : Compile β) :=
  fun _ _ _ => rfl

/-- **Related steps in sequence** are related. -/
theorem bind {Q : K.World → α → β → Prop} {R : K.World → γ → δ → Prop}
    {m : Compile α} {m' : Compile β} {f : α → Compile γ} {f' : β → Compile δ}
    (first : K.Related w Q m m')
    (next : ∀ v a b, K.Later w v → Q v a b → K.Related v R (f a) (f' b)) :
    K.Related w R (m >>= f) (m' >>= f') := by
  intro s t agree
  have step := first s t agree
  rcases left : m.outcome s with ⟨_ | a, s'⟩ <;> rcases right : m'.outcome t with ⟨_ | b, t'⟩ <;>
    rw [left, right] at step
  · rw [Compile.outcome_bind_error left, Compile.outcome_bind_error right]
    exact step
  · exact step.elim
  · exact step.elim
  · obtain ⟨v, later, agree', h⟩ := step
    rw [Compile.outcome_bind_ok left, Compile.outcome_bind_ok right]
    exact (next v a b later h s' t' agree').imp later fun _ _ _ _ r => r

/-- Related results may be weakened. -/
theorem imp {Q R : K.World → α → β → Prop} {m : Compile α} {m' : Compile β}
    (h : K.Related w Q m m') (weaken : ∀ v a b, K.Later w v → Q v a b → R v a b) :
    K.Related w R m m' :=
  fun s t agree => (h s t agree).imp (K.refl w) weaken

/-- Related steps over a list. -/
theorem mapM {ι : Type} {xs : List ι} {f : ι → Compile α} {g : ι → Compile β}
    {R : K.World → ι → α × β → Prop}
    (mono : ∀ {u v x r}, K.Later u v → R u x r → R v x r)
    (each : ∀ x ∈ xs, ∀ w, K.Related w (fun v a b => R v x (a, b)) (f x) (g x)) (w : K.World) :
    K.Related w (fun v as bs => ∃ rs, List.Forall₂ (R v) xs rs ∧ rs.map Prod.fst = as
      ∧ rs.map Prod.snd = bs) (xs.mapM f) (xs.mapM g) := by
  induction xs generalizing w with
  | nil => exact pure ⟨[], .nil, rfl, rfl⟩
  | cons x xs ih =>
    obtain ⟨first, others⟩ := List.forall_mem_cons.1 each
    rw [List.mapM_cons, List.mapM_cons]
    refine (first w).bind fun v a b _ here => (ih others v).bind ?_
    rintro u _ _ later ⟨rs, all, rfl, rfl⟩
    exact pure ⟨(a, b) :: rs, .cons (mono later here) all, rfl, rfl⟩

/-- A step that only reads what was given succeeds or fails on both sides. -/
theorem lift {Q : K.World → α → α → Prop} (x : Except CompileError α)
    (h : ∀ a, x = .ok a → Q w a a) :
    K.Related w Q (liftM x : Compile α) (liftM x : Compile α) := by
  cases x with
  | error e => exact fun _ _ _ => rfl
  | ok a => exact pure (h a rfl)

/-- A quiet step on one side does not disturb what follows. -/
theorem quiet_left {Q : K.World → β → γ → Prop} {P : α → Prop} {m : Compile α}
    {f : α → Compile β} {m' : Compile γ} (quiet : m.Quiet P)
    (next : ∀ a, P a → K.Related w Q (f a) m') : K.Related w Q (m >>= f) m' := by
  intro s t agree
  obtain ⟨a, s', run, same, p⟩ := quiet s
  rw [Compile.outcome_bind_ok run]
  exact next a p s' t (K.agree_of_same agree same (.refl t))

theorem quiet_right {Q : K.World → β → γ → Prop} {P : α → Prop} {m : Compile β}
    {m' : Compile α} {f' : α → Compile γ} (quiet : m'.Quiet P)
    (next : ∀ a, P a → K.Related w Q m (f' a)) : K.Related w Q m (m' >>= f') := by
  intro s t agree
  obtain ⟨a, t', run, same, p⟩ := quiet t
  rw [Compile.outcome_bind_ok run]
  exact next a p s t' (K.agree_of_same agree (.refl s) same)

/-- Quiet steps are related by what they give. -/
theorem quiet {Q : K.World → α → β → Prop} {P : α → Prop} {P' : β → Prop} {m : Compile α}
    {m' : Compile β} (h : m.Quiet P) (h' : m'.Quiet P') (hq : ∀ a b, P a → P' b → Q w a b) :
    K.Related w Q m m' := by
  intro s t agree
  obtain ⟨a, s', run, same, p⟩ := h s
  obtain ⟨b, t', run', same', p'⟩ := h' t
  rw [run, run']
  exact ⟨w, K.refl w, K.agree_of_same agree same same', hq a b p p'⟩

end Related

end Correspondence

end TemplateCompiler
