import TemplateCompiler.Proofs.Compile.Printable
import TemplateCompiler.Proofs.Compile.UnitNames
import TemplateCompiler.Proofs.Script.Layout
import TemplateCompiler.Proofs.Script.Literals
import TemplateCompiler.Proofs.Text.Pieces

/-!
# Links between modules

A program that is split has a module for each unit. `Module.imports` reads what
a module imports, and `Module.exported?` the name of the function behind the
imports, both from the text alone. The file of a partial's unit is called by the
unit, and that of the root as the options say, which may be what the file of a
partial is called. Only then do two files have one name (`print_split`), and
otherwise each import is of the one file that exports what it asks for.
-/

open List

namespace TemplateCompiler

variable {o : PrintOptions}

variable {u : CodeUnit} {po : PrintOptions} {r : ImportRef} {name : Bytes}

/-! ## Reading modules -/

namespace Module

/-- An import statement: the function, and the file next to the module that it
is imported from. -/
structure Import where
  unit : Bytes
  file : Bytes
deriving DecidableEq, Repr

def readImport? (line : Bytes) : Option Import := do
  let rest ← Bytes.dropPrefix? "import \x7b " line
  let path ← Bytes.dropPrefix? " \x7d from \"./" (rest.dropWhile (· != Byte.space))
  if path.dropWhile (· != Byte.quote) = "\";" then
    some ⟨rest.takeWhile (· != Byte.space), path.takeWhile (· != Byte.quote)⟩
  else none

/-- **The imports of a module**: the statements that its lines start with. -/
def imports (code : Bytes) : List Import :=
  ((Bytes.splitOn Byte.newline code).takeWhile fun line => (readImport? line).isSome).filterMap readImport?

/-- **The function that a module exports**, if that is what comes behind its
imports. -/
def exported? (code : Bytes) : Option Bytes :=
  let lines := (Bytes.splitOn Byte.newline code).dropWhile fun line =>
    (readImport? line).isSome || line.isEmpty
  lines.head?.bind fun line =>
    (Bytes.dropPrefix? "export function " line).map (·.takeWhile (· != 0x28))

end Module

/-- A name that ends before the parameters of its function, on its line. -/
def Module.Readable (name : Bytes) : Prop := Byte.newline ∉ name ∧ (0x28 : UInt8) ∉ name

namespace UnitName

/-- No other ASCII characters stand in the name of a unit. -/
theorem Legal.not_mem (legal : Legal name) {b : UInt8} (ascii : b < 0x80)
    (other : isPart b.toNat = false) : b ∉ name := by
  intro mem
  have part := legal.2.1 _ (Utf8.mem_points_of_ascii mem ascii)
  simp_all [isPart]

theorem Legal.readable (legal : Legal name) : Module.Readable name :=
  ⟨legal.not_mem (by decide) (by decide +kernel), legal.not_mem (by decide) (by decide +kernel)⟩

/-- The path of a unit's file needs no escapes. -/
theorem Legal.quote_path (legal : Legal name) :
    Script.quote ("./" ++ name ++ ".js") = "\"" ++ ("./" ++ name ++ ".js") ++ "\"" := by
  have start : ∀ b ∈ Bytes.ofString "./", b < 0x80 := by decide +kernel
  have tail : ∀ b ∈ Bytes.ofString ".js", b < 0x80 := by decide +kernel
  have valid := Utf8.isValid_append (Utf8.isValid_of_ascii start) legal.1
  have plain : ∀ code ∈ Utf8.points (Bytes.ofString "./" ++ name ++ ".js"), code ∉ Script.specials := by
    rw [Utf8.points_append (Utf8.closed_of_isValid valid),
      Utf8.points_append (Utf8.closed_of_isValid (Utf8.isValid_of_ascii start)),
      Utf8.points_of_ascii start, Utf8.points_of_ascii tail]
    refine forall_mem_append.2 ⟨forall_mem_append.2 ⟨by decide +kernel, ?_⟩, by decide +kernel⟩
    intro code mem special
    have other : isPart code = false := by
      clear mem
      revert code
      decide +kernel
    have part := legal.2.1 code mem
    simp_all [isPart]
  have same : ∀ code ∈ Utf8.points (Bytes.ofString "./" ++ name ++ ".js"),
      Script.quotePoint code = Utf8.encode code := fun code mem =>
    ((Script.quotePoint_cases code).resolve_left fun escaped => plain code mem escaped.1).2
  rw [Script.quote, flatMap_congr same, ← Utf8.ofPoints,
    Utf8.ofPoints_points (Utf8.isValid_append valid (Utf8.isValid_of_ascii tail))]

end UnitName

/-! ## Writing modules -/

/-- The lines in front of the function of a unit. -/
def CodeUnit.head (u : CodeUnit) : List Bytes :=
  u.imports.map (·.doc.text) ++ if u.imports.isEmpty then [] else [[]]

theorem CodeUnit.moduleDoc_text {d : Doc} (h : u.moduleDoc o = .ok d) :
    ∃ rest, d.text = u.head.flatMap (· ++ [Byte.newline])
      ++ ("export function " ++ (u.name ++ ("(" ++ rest))) := by
  obtain ⟨own, printed, h⟩ := PrintError.bind_ok_iff.1 h
  cases h
  obtain ⟨params, -, printed⟩ := PrintError.bind_ok_iff.1 (docIn_ok printed)
  obtain ⟨statements, -, printed⟩ := PrintError.bind_ok_iff.1 printed
  obtain ⟨body, -, printed⟩ := PrintError.bind_ok_iff.1 printed
  cases printed
  have imports : Doc.text ((u.imports.flatMap fun r => r.doc ++ Doc.ofText "\n")
      ++ if u.imports.isEmpty then [] else Doc.ofText "\n")
      = u.head.flatMap (· ++ [Byte.newline]) := by
    rw [Doc.text_append, Doc.text_flatMap, head, flatMap_append, flatMap_map]
    congr 1
    · simp only [Doc.text_append, Doc.text_ofText]
      rfl
    · split <;> rfl
  rw [Doc.text_append, Doc.text_append, imports]
  simp only [Doc.text_append, Doc.text_ofText, Doc.text_mark, append_assoc, nil_append,
    if_true]
  exact ⟨_, rfl⟩

namespace Module

open UnitName (Legal)

variable {u : CodeUnit} {rest : Bytes}

theorem doc_text (legal : Legal r.unit) :
    r.doc.text = "import \x7b " ++ (r.unit ++ (" \x7d from \"./" ++ (r.unit ++ ".js" ++ "\";"))) := by
  rw [ImportRef.doc, legal.quote_path]
  simp only [Doc.text_append, Doc.text_ofText, Doc.text_mark, append_assoc, nil_append]
  rfl

/-- **An import is read back.** -/
theorem readImport?_doc (legal : Legal r.unit) :
    readImport? r.doc.text = some ⟨r.unit, r.unit ++ ".js"⟩ := by
  have spaceless : ∀ b ∈ r.unit, (b != Byte.space) = true := fun b mem =>
    bne_iff_ne.2 fun same => legal.not_mem (by decide) (by decide +kernel) (same ▸ mem)
  have quoteless : ∀ b ∈ r.unit ++ Bytes.ofString ".js", (b != Byte.quote) = true := by
    refine forall_mem_append.2 ⟨fun b mem => ?_, by decide +kernel⟩
    exact bne_iff_ne.2 fun same => legal.not_mem (by decide) (by decide +kernel) (same ▸ mem)
  have stops (rest : Bytes) : (Bytes.ofString " \x7d from \"./" ++ rest).dropWhile (· != Byte.space)
      = " \x7d from \"./" ++ rest
      ∧ (Bytes.ofString " \x7d from \"./" ++ rest).takeWhile (· != Byte.space) = [] := ⟨rfl, rfl⟩
  rw [doc_text legal, readImport?, Script.dropPrefix?_append]
  simp only [Option.bind_eq_bind, Option.bind_some]
  rw [dropWhile_append_of_pos spaceless, takeWhile_append_of_pos spaceless,
    (stops _).1, (stops _).2, Script.dropPrefix?_append]
  simp only [Option.bind_some]
  rw [dropWhile_append_of_pos quoteless, takeWhile_append_of_pos quoteless,
    if_pos (by decide +kernel), show (Bytes.ofString "\";").takeWhile (· != Byte.quote) = [] from rfl,
    append_nil, append_nil]

/-- The line of a function is no import. -/
theorem readImport?_function (line : Bytes) : readImport? ("export function " ++ line) = none := rfl

/-- The lines of a module: those in front of its function, and the function. -/
theorem splitOn_text (legal : ∀ r ∈ u.imports, Legal r.unit) {rest line : Bytes}
    {lines : List Bytes} (function : Bytes.splitOn Byte.newline rest = line :: lines) :
    Bytes.splitOn Byte.newline (u.head.flatMap (· ++ [Byte.newline]) ++ ("export function " ++ rest))
      = u.head ++ ("export function " ++ line) :: lines := by
  have apart : ∀ l ∈ u.head, Byte.newline ∉ l := by
    refine forall_mem_append.2 ⟨forall_mem_map.2 fun r mem => ?_, by split <;> simp⟩
    have name := (legal r mem).readable.1
    rw [doc_text (legal r mem)]
    simp only [mem_append, name, false_or]
    decide +kernel
  rw [Bytes.splitOn_ended apart, Bytes.splitOn_append (by decide +kernel), function]
  rfl

/-- **What a module imports is read from its text.** -/
theorem imports_text (legal : ∀ r ∈ u.imports, Legal r.unit) (rest : Bytes) :
    imports (u.head.flatMap (· ++ [Byte.newline]) ++ ("export function " ++ rest))
      = u.imports.map fun r => ⟨r.unit, r.unit ++ ".js"⟩ := by
  obtain ⟨line, lines, function⟩ := exists_cons_of_ne_nil (Bytes.splitOn_ne_nil Byte.newline rest)
  have read : ∀ l ∈ u.imports.map (·.doc.text), (readImport? l).isSome = true :=
    forall_mem_map.2 fun r mem => by rw [readImport?_doc (legal r mem)]; rfl
  have behind : ((if u.imports.isEmpty then [] else [[]])
      ++ (Bytes.ofString "export function " ++ line) :: lines).takeWhile
        (fun l => (readImport? l).isSome) = [] := by
    split <;> rfl
  rw [imports, splitOn_text legal function, CodeUnit.head, append_assoc,
    takeWhile_append_of_pos read, behind, append_nil, filterMap_map]
  exact filterMap_eq_map_iff_forall_eq_some.2 fun r mem => readImport?_doc (legal r mem)

/-- **So is what it exports.** -/
theorem exported?_text (legal : ∀ r ∈ u.imports, Legal r.unit)
    (readable : Readable u.name) (rest : Bytes) :
    exported? (u.head.flatMap (· ++ [Byte.newline])
      ++ ("export function " ++ (u.name ++ ("(" ++ rest)))) = some u.name := by
  obtain ⟨line, lines, function⟩ := exists_cons_of_ne_nil (Bytes.splitOn_ne_nil Byte.newline rest)
  have whole : Bytes.splitOn Byte.newline (u.name ++ ("(" ++ rest))
      = (u.name ++ ("(" ++ line)) :: lines := by
    rw [Bytes.splitOn_append readable.1, Bytes.splitOn_append (by decide +kernel), function]
    rfl
  have passed : ∀ l ∈ u.head, ((readImport? l).isSome || l.isEmpty) = true := by
    refine forall_mem_append.2 ⟨forall_mem_map.2 fun r mem => ?_, by split <;> simp⟩
    rw [readImport?_doc (legal r mem)]
    rfl
  have ends : ∀ b ∈ u.name, (b != (0x28 : UInt8)) = true := fun b mem =>
    bne_iff_ne.2 fun same => readable.2 (same ▸ mem)
  rw [exported?, splitOn_text legal whole, dropWhile_append_of_pos passed,
    dropWhile_cons_of_neg (by rw [readImport?_function]; exact Bool.false_ne_true),
    head?_cons, Option.bind_some, Script.dropPrefix?_append, Option.map_some, takeWhile_append_of_pos ends]
  exact congrArg some (append_nil _)

end Module

/-! ## Split programs -/

/-- A file is the module of a unit. -/
def OutputFile.Holds (o : PrintOptions) (f : OutputFile) (u : CodeUnit) : Prop :=
  ∃ d, u.moduleDoc o = .ok d ∧ f.code = d.text

theorem Program.print_modules (split : o.split = true) {p : Program} {root : CodeUnit}
    (last : p.root = some root) {files : List OutputFile} (h : p.print o = .ok files) :
    ∃ fs f, files = fs ++ [f]
      ∧ List.Forall₂ (fun (u : CodeUnit) (f : OutputFile) =>
        f.name = u.name ++ ".js" ∧ f.Holds o u) p.units fs
      ∧ f.name = (if o.file.isEmpty then root.name ++ ".js" else o.file) ∧ f.Holds o root := by
  unfold print at h
  rw [last] at h
  dsimp only at h
  rw [if_pos split] at h
  obtain ⟨fs, each, h⟩ := PrintError.bind_ok_iff.1 h
  obtain ⟨d, printed, h⟩ := PrintError.bind_ok_iff.1 h
  cases h
  refine ⟨fs, _, rfl, (PrintError.mapM_ok_iff.1 each).imp fun u f made => ?_, rfl, d, printed, rfl⟩
  obtain ⟨d, printed, made⟩ := PrintError.bind_ok_iff.1 made
  cases made
  exact ⟨rfl, d, printed, rfl⟩

section

variable {parts : List OutputFile} {last : OutputFile}

variable {o : CompileOptions} {lib : Library} {src : Bytes} {p : Program}

/-- The root is called as the options say. -/
theorem compile_root_name (compiles : (compile o lib src).1 = .ok p) {root : CodeUnit}
    (last : p.root = some root) : root.name = o.root := by
  obtain ⟨tree, d, t, unit, -, -, rfl, closed⟩ := Compile.closes_of_compile compiles
  cases last
  exact closed.name

/-- **Units import units of the program.** -/
theorem compile_imports (compiles : (compile o lib src).1 = .ok p)
    (mem : u ∈ p.allUnits) (imported : r ∈ u.imports) :
    ∃ v ∈ p.units, v.name = r.unit := by
  obtain ⟨v, w, sets, d, -, later, units, made⟩ := compile_made_unit compiles mem
  have name : r.unit ∈ (u.imports.map ImportRef.erase).map ImportRef.unit := by
    rw [map_map]
    exact mem_map.2 ⟨r, imported, rfl⟩
  rw [made.imports, ImportRef.units_foldl] at name
  obtain ⟨q, called, same⟩ := mem_map.1 (name.resolve_left (by simp))
  obtain ⟨id, -, found⟩ := mem_filterMap.1 called
  split at found
  · obtain ⟨f, known, rfl⟩ := Option.map_eq_some_iff.1 found
    refine ⟨f.unit, ?_, same⟩
    rw [units, mem_reverse]
    exact mem_map_of_mem (later.mem (mem_of_find?_eq_some known))
  · cases found

/-- **A module tells what its unit imports and exports.** -/
theorem OutputFile.Holds.reads {f : OutputFile}
    (holds : f.Holds po u) (legal : ∀ r ∈ u.imports, UnitName.Legal r.unit) :
    Module.imports f.code = u.imports.map (fun r => ⟨r.unit, r.unit ++ ".js"⟩)
      ∧ (Module.Readable u.name → Module.exported? f.code = some u.name) := by
  obtain ⟨d, printed, code⟩ := holds
  obtain ⟨rest, text⟩ := CodeUnit.moduleDoc_text printed
  rw [code, text]
  exact ⟨Module.imports_text legal _, fun readable => Module.exported?_text legal readable rest⟩

/-- The import statements of a unit. -/
def CodeUnit.importStatements (u : CodeUnit) : List Module.Import :=
  u.imports.map fun r => ⟨r.unit, r.unit ++ ".js"⟩

/-- **What the files of a split program tell.** -/
structure Split (o : CompileOptions) (p : Program) (po : PrintOptions) (parts : List OutputFile)
    (last : OutputFile) : Prop where
  /-- The files of partials, and what they export. -/
  units : parts.map (fun f => (f.name, Module.exported? f.code))
    = p.units.map fun u => (u.name ++ Bytes.ofString ".js", some u.name)
  name : last.name = if po.file.isEmpty then o.root ++ ".js" else po.file
  root : Module.Readable o.root → Module.exported? last.code = some o.root
  imports : (parts ++ [last]).map (Module.imports ·.code) = p.allUnits.map CodeUnit.importStatements

theorem split_of_print (compiles : (compile o lib src).1 = .ok p)
    (split : po.split = true) {files : List OutputFile} (printed : p.print po = .ok files) :
    ∃ parts last, files = parts ++ [last] ∧ Split o p po parts last := by
  obtain ⟨w, root, d, -, given, -, -⟩ := compile_made compiles
  obtain ⟨parts, last, rfl, modules, name, holds⟩ := Program.print_modules split given printed
  obtain ⟨-, fit⟩ := compile_unit_names compiles
  have all : p.allUnits = p.units ++ [root] := by rw [Program.allUnits, given]; rfl
  have legal : ∀ u ∈ p.allUnits, ∀ r ∈ u.imports, UnitName.Legal r.unit := by
    intro u mem r imported
    obtain ⟨v, inside, same⟩ := compile_imports compiles mem imported
    exact same ▸ (fit v inside).2.2.2
  have rootName := compile_root_name compiles given
  have both : List.Forall₂ (fun u f => OutputFile.Holds po f u) p.allUnits (parts ++ [last]) := by
    rw [all]
    exact rel_append (modules.imp fun u f made => made.2) (.cons holds .nil)
  refine ⟨parts, last, rfl, ?_, rootName ▸ name, ?_, ?_⟩
  · rw [← forall₂_eq_eq_eq, forall₂_map_left_iff, forall₂_map_right_iff]
    refine ((forall₂_and_left _ _).2 ⟨fun u mem => mem, modules⟩).flip.imp fun f u made => ?_
    obtain ⟨mem, named, holds⟩ := made
    obtain ⟨-, exported⟩ := holds.reads (legal u (mem_append_left _ mem))
    exact Prod.ext named (exported (fit u mem).2.2.2.readable)
  · rw [← rootName]
    exact (holds.reads (legal root (by rw [all]; simp))).2
  · rw [← forall₂_eq_eq_eq, forall₂_map_left_iff, forall₂_map_right_iff]
    refine ((forall₂_and_left _ _).2 ⟨fun u mem => mem, both⟩).flip.imp fun f u made => ?_
    obtain ⟨mem, holds⟩ := made
    exact (OutputFile.Holds.reads holds (legal u mem)).1

theorem root_not_mem_names (compiles : (compile o lib src).1 = .ok p) :
    o.root ∉ p.units.map (·.name) := by
  intro mem
  obtain ⟨u, unit, same⟩ := mem_map.1 mem
  exact ((compile_unit_names compiles).2 u unit).2.1 (same ▸ mem_cons_self)

theorem ofUnit_injective : Function.Injective (· ++ Bytes.ofString ".js") :=
  append_left_injective _

/-- **Two files share a name** only if the options give the root's file that of
a partial's. -/
theorem Split.nodup_iff (h : Split o p po parts last) (compiles : (compile o lib src).1 = .ok p) :
    ((parts ++ [last]).map (·.name)).Nodup ↔ ∀ u ∈ p.units, po.file ≠ u.name ++ ".js" := by
  have names : parts.map (·.name) = (p.units.map (·.name)).map (· ++ Bytes.ofString ".js") := by
    simpa [Function.comp_def] using congrArg (List.map Prod.fst) h.units
  have apart : (parts.map (·.name)).Nodup :=
    names ▸ (compile_unit_names compiles).1.map ofUnit_injective
  rw [map_append, map_singleton, nodup_append_comm, singleton_append,
    nodup_cons, and_iff_left apart, h.name, names]
  cases empty : po.file.isEmpty with
  | true =>
    rw [if_pos rfl, isEmpty_iff.1 empty, mem_map_of_injective ofUnit_injective]
    refine iff_of_true (root_not_mem_names compiles) fun u _ same => ?_
    exact absurd (append_eq_nil_iff.1 same.symm).2 (by decide +kernel)
  | false =>
    rw [if_neg (by simp), map_map, mem_map]
    exact ⟨fun absent u mem same => absent ⟨u, mem, same.symm⟩,
      fun other ⟨u, mem, same⟩ => other u mem same.symm⟩

/-- No two files export functions of one name. -/
theorem Split.exports_nodup (h : Split o p po parts last) (compiles : (compile o lib src).1 = .ok p)
    (readable : Module.Readable o.root) :
    ((parts ++ [last]).map (Module.exported? ·.code)).Nodup := by
  have names : parts.map (Module.exported? ·.code) = (p.units.map (·.name)).map some := by
    simpa [Function.comp_def] using congrArg (List.map Prod.snd) h.units
  rw [map_append, map_singleton, nodup_append_comm, singleton_append,
    nodup_cons, names, h.root readable, mem_map_of_injective (Option.some_injective _)]
  exact ⟨root_not_mem_names compiles,
    (compile_unit_names compiles).1.map (Option.some_injective _)⟩

end

/-- A value that comes once under a view. -/
theorem filter_eq_singleton {α β : Type} [BEq β] [LawfulBEq β] {f : α → β} {xs : List α}
    (once : (xs.map f).Nodup) {a : α} (mem : a ∈ xs) : xs.filter (f · == f a) = [a] := by
  classical
  have same : xs.filter (f · == f a) = xs.filter (· == a) := filter_congr fun b inside => by
    rw [Bool.eq_iff_iff, beq_iff_eq, beq_iff_eq]
    exact ⟨inj_on_of_nodup_map once inside mem, congrArg f⟩
  rw [same, filter_beq, count_eq_one_of_mem (.of_map f once) mem, replicate_one]

/-- **Split programs are linked.** A program that was compiled is split into one
file for each unit. Their names are distinct exactly if the name that the
options give the root's file is not that of a partial's. Then each import names
the one file that has the name, and that file exports the function; and it is
the only one to do so, if the name of the root can be read. -/
theorem print_split {o : CompileOptions} {lib : Library} {src : Bytes} {p : Program}
    (compiles : (compile o lib src).1 = .ok p) (po : PrintOptions) (split : po.split = true) :
    ∃ files, p.print po = .ok files ∧ files.length = p.allUnits.length
      ∧ ((files.map (·.name)).Nodup ↔ ∀ u ∈ p.units, po.file ≠ u.name ++ ".js")
      ∧ ((files.map (·.name)).Nodup → ∀ f ∈ files, ∀ i ∈ Module.imports f.code,
        i.file = i.unit ++ ".js" ∧ ∃ target, files.filter (·.name == i.file) = [target]
          ∧ Module.exported? target.code = some i.unit
          ∧ (Module.Readable o.root →
            files.filter (Module.exported? ·.code == some i.unit) = [target])) := by
  obtain ⟨files, printed⟩ := print_of_compile compiles po
  obtain ⟨parts, last, rfl, told⟩ := split_of_print compiles split printed
  refine ⟨_, printed, ?_, told.nodup_iff compiles, fun distinct f mem i imported => ?_⟩
  · have same := congrArg List.length told.imports
    rwa [List.length_map, List.length_map] at same
  obtain ⟨u, unit, same⟩ := List.mem_map.1 (told.imports ▸ List.mem_map_of_mem mem)
  rw [← same] at imported
  obtain ⟨r, ref, rfl⟩ := List.mem_map.1 imported
  obtain ⟨v, inside, same⟩ := compile_imports compiles unit ref
  have here : (v.name ++ Bytes.ofString ".js", some v.name)
      ∈ parts.map fun f => (f.name, Module.exported? f.code) := told.units ▸ List.mem_map_of_mem inside
  obtain ⟨target, mem, pair⟩ := List.mem_map.1 here
  obtain ⟨named, exported⟩ := Prod.mk.inj pair
  rw [same] at named exported
  have mem : target ∈ parts ++ [last] := List.mem_append_left _ mem
  refine ⟨rfl, target, ?_, exported, fun readable => ?_⟩
  · rw [← named]
    exact filter_eq_singleton distinct mem
  · rw [← exported]
    exact filter_eq_singleton (told.exports_nodup compiles readable) mem

/-- A page with a card, compiled and split into files. -/
private def splitCards (file : Bytes) : Option (List OutputFile) :=
  (compile { moduleMode := true } ⟨[("card", "x")]⟩ "\x7b% include \"card\" %\x7d").1.toOption.bind
    fun p => (p.print { split := true, file }).toOption

/-- The names of the two files and their imports. -/
private def cardHeads (root : Bytes) : List (Bytes × List Module.Import) :=
  [("partial_card.js", []), (root, [⟨"partial_card", "partial_card.js"⟩])]

theorem splitCards_linked :
    ∃ files, splitCards [] = some files
      ∧ files.map (fun f => (f.name, Module.imports f.code)) = cardHeads "template.js"
      ∧ ∀ f ∈ files, ∀ i ∈ Module.imports f.code, ∃ target,
        files.filter (·.name == i.file) = [target] ∧ Module.exported? target.code = some i.unit := by
  have shown : (splitCards []).map (·.map fun f => (f.name, Module.imports f.code))
      = some (cardHeads "template.js") := by
    cbv
  unfold splitCards at shown ⊢
  cases compiles : (compile { moduleMode := true } ⟨[("card", "x")]⟩ "\x7b% include \"card\" %\x7d").1 with
  | error e =>
    rw [compiles] at shown
    cases shown
  | ok p =>
    obtain ⟨files, printed, -, distinct, links⟩ :=
      print_split compiles { split := true, file := [] } rfl
    rw [compiles] at shown
    change ((p.print _).toOption.map _) = _ at shown
    rw [printed] at shown
    refine ⟨files, congrArg Except.toOption printed, Option.some.inj shown, fun f mem i imported => ?_⟩
    have apart := distinct.2 fun u _ same =>
      absurd (List.append_eq_nil_iff.1 same.symm).2 (by decide +kernel)
    obtain ⟨-, target, only, exported, -⟩ := links apart f mem i imported
    exact ⟨target, only, exported⟩

/-- **Files that share a name**: that of the root takes the name of the card's,
which the root imports. -/
theorem splitCards_clash :
    (splitCards "partial_card.js").map (·.map fun f => (f.name, Module.imports f.code))
      = some (cardHeads "partial_card.js") := by
  cbv

end TemplateCompiler
