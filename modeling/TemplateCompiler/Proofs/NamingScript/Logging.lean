import TemplateCompiler.NamingScript.Evaluator
import Mathlib

/-!
# Scripts do not see their file

The name of the file that a script is in stands in the wording of errors and in
the log, and nothing that runs looks at either. So the names that a naming
script gives depend on its text alone (`NamingScript.namer_file`).
-/

namespace TemplateCompiler

/-- **Namings that give the same names**, whatever they log. -/
def Naming.Same (naming naming' : Naming) : Prop := ∀ name, (naming name).1 = (naming' name).1

namespace NamingScript

/-- **Running a script** under another file name changes the wording of errors
alone. -/
theorem Evaluator.exec_file (e : Evaluator) (file file' text : Bytes) :
    (e.exec file text).1.toOption = (e.exec file' text).1.toOption
      ∧ (e.exec file text).2 = (e.exec file' text).2 := by
  unfold exec
  dsimp only
  split
  · exact ⟨rfl, rfl⟩
  · exact ⟨rfl, rfl⟩

/-- The name that a script gives is that of its naming function. -/
theorem namingOf_fst (file : Bytes) (e : Evaluator) (name : Bytes) :
    (namingOf file e name).1
      = match ({ e with machine := { e.machine with printed := [] } }.call namingFunction
          [name]).1 with
        | .error _ | .ok [] => UnitName.ofPartial name
        | .ok given => given := by
  unfold namingOf
  dsimp only
  generalize Evaluator.call _ namingFunction [name] = called
  obtain ⟨result, e⟩ := called
  match result with
  | .error _ | .ok [] | .ok (_ :: _) => rfl

/-- **The names that a naming script gives** do not depend on its file. -/
theorem namer_file (file file' text : Bytes) :
    Option.Rel Naming.Same (namer file text).1.toOption (namer file' text).1.toOption := by
  obtain ⟨results, evaluators⟩ := (Evaluator.start ["default_name"]).exec_file file file' text
  unfold namer
  generalize (Evaluator.start ["default_name"]).exec file text = ran at results evaluators
  generalize (Evaluator.start ["default_name"]).exec file' text = ran' at results evaluators
  obtain ⟨result, e⟩ := ran
  obtain ⟨result', e'⟩ := ran'
  obtain rfl : e = e' := evaluators
  have names : Naming.Same (namingOf file e) (namingOf file' e) := by
    intro name
    rw [namingOf_fst, namingOf_fst]
  cases result with
  | error => cases result' with
    | error => exact .none
    | ok => cases results
  | ok => cases result' with
    | error => cases results
    | ok =>
      dsimp only
      cases e.function? namingFunction with
      | none => exact .none
      | some => exact .some names

theorem parse_nil : parse [] = .ok [] := by
  have tokens : Token.scan [] = [⟨.ended, {}, {}⟩] := by decide +kernel
  unfold parse Parse.onText
  rw [tokens]
  rfl

/-- No naming is defined in an empty script. -/
theorem namer_nil (file : Bytes) : (namer file []).1.toOption = none := by
  have correct (given : Bytes → Bool) : check given [] = .ok () := rfl
  unfold namer Evaluator.exec
  rw [parse_nil]
  dsimp only [bind, Except.bind]
  rw [correct]
  rfl

end NamingScript

end TemplateCompiler
