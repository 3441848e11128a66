import TemplateCompiler.Main
import TemplateCompiler.Proofs.Build.Delivery
import TemplateCompiler.Proofs.Build.Transparency
import TemplateCompiler.Proofs.Cache.Canonical
import TemplateCompiler.Proofs.Code.Lexical
import TemplateCompiler.Proofs.Compile.Bodies
import TemplateCompiler.Proofs.Compile.Cycles
import TemplateCompiler.Proofs.Compile.Hygiene
import TemplateCompiler.Proofs.Compile.Located
import TemplateCompiler.Proofs.Compile.Ordering
import TemplateCompiler.Proofs.Compile.Support
import TemplateCompiler.Proofs.Script.Literals
import TemplateCompiler.Proofs.SourceMap.Tracing
import TemplateCompiler.Proofs.Template.Standing
import TemplateCompiler.Proofs.Template.Strings
import TemplateCompiler.Proofs.Compile.Binders
import TemplateCompiler.Proofs.Compile.CycleReports
import TemplateCompiler.Proofs.Compile.ModuleLinks
import TemplateCompiler.Proofs.Compile.MinusSigns
import TemplateCompiler.Proofs.Script.Braces
import TemplateCompiler.Proofs.Script.Interpolations
import TemplateCompiler.Proofs.Template.Texts
import TemplateCompiler.Proofs.Script.PropertyNames
import TemplateCompiler.Proofs.Template.AssignTags
import TemplateCompiler.Proofs.Template.Integers
