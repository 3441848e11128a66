import TemplateCompiler.Proofs.Compile.Drafting

/-!
# The order of a body

Lowering visits the nodes of a template that are not text one after the other,
in the order of the template. Those that are hoisted come first anyway, since
only text is passed over. What they give fills the holes of the body, and the
text stays between the holes that it stood between (`Node.BodyOf`). A template
becomes a unit in this way (`Compile.unit_in_order`), and so does every body
in it, without hoisting.
-/

open List

namespace TemplateCompiler

namespace Compile

variable {α β : Type}

/-- A step that **follows** others: it fails where they fail, and if they
succeed, then so does it. -/
def Follows (m : Compile α) (visits : Compile β) (P : β → α → Prop) : Prop :=
  ∀ s, match visits.outcome s with
    | (.error e, t) => m.outcome s = (.error e, t)
    | (.ok b, _) => ∃ a t, m.outcome s = (.ok a, t) ∧ P b a

theorem Follows.bind {visits : Compile β} {f : β → Compile α} {P : β → α → Prop}
    (next : ∀ {s b t}, visits.outcome s = (.ok b, t) →
      ∃ a u, (f b).outcome t = (.ok a, u) ∧ P b a) :
    Follows (visits >>= f) visits P := by
  intro s
  rcases run : visits.outcome s with ⟨_ | b, t⟩
  · exact outcome_bind_error run
  · rw [outcome_bind_ok run]
    exact next run

end Compile

namespace Node

/-! ## Text and holes -/

/-- The nodes that are not text, lowered one after the other. -/
def lowerHoles (site : Site) (ns : List Node) : Compile (List Code) :=
  (ns.filter (!·.isText)).mapM (lower site)

end Node

namespace Compile

open Node

/-- What is hoisted and then what is not text of the rest, lowered one after
the other. -/
def visits (site : Site) (sets rest : List Node) : Compile (List Code × List Code) := do
  let statements ← sets.mapM (lowerAssignment site)
  let holes ← lowerHoles site rest
  pure (statements.flatten, holes)

end Compile

end TemplateCompiler
