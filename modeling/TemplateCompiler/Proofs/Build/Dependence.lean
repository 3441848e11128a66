import TemplateCompiler.Proofs.Cache.Key
import TemplateCompiler.Proofs.Compile.Independence
import TemplateCompiler.Proofs.Files.Places
import TemplateCompiler.Proofs.Script.Marks

/-!
# What generated files depend on

Where the digest does not collide, builds with one key agree in everything that
goes into the generated files (`Build.key_inj`), except for the path of the
template: of that the key has only the name. Builds that agree generate the
same files for one path (`Build.compiled_agrees`). For two paths they do so if
the path does not show, which it does in dumped code and in source maps.
-/

namespace TemplateCompiler

/-- A file is read as the tree has it. -/
theorem FileTree.read_bind {α : Type} (path : Bytes) (next : Except FileError Bytes → StateM FileTree α)
    (t : FileTree) : (FileAccess.read path >>= next : StateM FileTree α) t = next (t.read path) t := rfl

theorem Settings.scriptText_apply (s : Settings) (t : FileTree) :
    (s.scriptText : StateM FileTree Bytes) t
      = ((if s.namingScript.isEmpty then []
          else match t.read (s.path s.namingScript) with | .ok text => text | .error _ => []), t) := by
  unfold scriptText
  cases s.namingScript.isEmpty with
  | true => rfl
  | false =>
    rw [if_neg Bool.false_ne_true, if_neg Bool.false_ne_true, FileTree.read_bind]
    cases t.read (s.path s.namingScript) <;> rfl

/-- **The naming of settings** is that of the text of the naming script. -/
theorem Settings.naming_apply (s : Settings) (t : FileTree) : ∃ (file : Bytes) (log : List LogRecord),
    (s.naming : StateM FileTree (Option Naming × List LogRecord)) t
      = (((NamingScript.namer file ((s.scriptText : StateM FileTree Bytes) t).1).1.toOption, log),
        t) := by
  rw [scriptText_apply]
  unfold naming
  cases s.namingScript.isEmpty with
  | true => exact ⟨[], [], by rw [if_pos rfl, if_pos rfl, NamingScript.namer_nil]; rfl⟩
  | false =>
    rw [if_neg Bool.false_ne_true, if_neg Bool.false_ne_true, FileTree.read_bind]
    cases t.read (s.path s.namingScript) with
    | error e => exact ⟨[], _, by dsimp only; rw [NamingScript.namer_nil]; rfl⟩
    | ok text =>
      dsimp only [pure_bind]
      refine ⟨s.path s.namingScript, ?_⟩
      generalize NamingScript.namer (s.path s.namingScript) text = named
      obtain ⟨result, log⟩ := named
      cases result <;> exact ⟨_, rfl⟩

namespace Build

/-- **A build as it is started** under some settings, on some files. -/
def Started (b : Build) : Prop :=
  ∃ (settings : Settings) (cache : Option Cache) (emit : Emit) (t t' : FileTree)
    (log : List LogRecord),
    (start settings cache emit : StateM FileTree (Except LoadError Build × List LogRecord)) t
      = ((.ok b, log), t')

/-- **Builds that agree** in what generated files depend on. -/
structure Agrees (b b' : Build) : Prop where
  settings : b.settings.Alike b'.settings
  script : b.script = b'.script
  emit : b.emit = b'.emit
  library : ∀ name, b.library.source? name = b'.library.source? name

/-- **Whether the path of the template shows in the generated files**: it does
in the locations of dumped code, and in source maps. -/
def showsPath (b : Build) : Bool :=
  match b.emit with
  | .script => b.settings.sourceMaps
  | .code => true
  | .outline => false

variable {b b' : Build} {path path' name name' source source' : Bytes}

/-! ## Keys -/

/-- What is digested for a key. -/
def input (b : Build) (name source : Bytes) : Bytes :=
  CacheKey.input source b.library (b.packed name)

/-- **A key that is made from texts of bounded length.** -/
structure Fits (b : Build) (name source : Bytes) : Prop where
  source : source.length < Unpack.limit
  partials : CacheKey.Fits b.library.partials
  settings : b.settings.Fits b.script
  name : name.length < Unpack.limit

theorem packed_head (b : Build) (name : Bytes) : (b.packed name).encode.head? ≠ some 0 := by
  unfold packed
  rw [Settings.encode_packed, List.head?_cons]
  decide

theorem emit_text (e : Emit) : e.text.length < Unpack.limit := by
  cases e <;> decide

theorem emit_text_inj {e e' : Emit} (same : e.text = e'.text) : e = e' := by
  revert same
  cases e <;> cases e' <;> decide

/-- **Builds with one key agree**, and compile one source under one name, where
the digest does not collide. -/
theorem key_inj (fits : b.Fits name source) (fits' : b'.Fits name' source')
    (free : sha256 (b.input name source) = sha256 (b'.input name' source') →
      b.input name source = b'.input name' source')
    (same : b.key name source = b'.key name' source') :
    b.Agrees b' ∧ name = name' ∧ source = source' := by
  have inputs := free (Bytes.toHex_injective same)
  obtain ⟨sources, partials, packed⟩ := CacheKey.input_inj
    (CacheKey.short_of_limit fits.source) (CacheKey.short_of_limit fits'.source)
    fits.partials.allShort fits'.partials.allShort (b.packed_head name) (b'.packed_head name') inputs
  obtain ⟨settings, scripts, emits, names⟩ := Settings.packed_inj fits.settings fits'.settings
    (emit_text b.emit) (emit_text b'.emit) fits.name fits'.name packed
  exact ⟨⟨settings, scripts, emit_text_inj emits, CacheKey.source?_eq partials⟩, names, sources⟩

/-! ## Naming -/

/-- The naming of a started build is that of its script, whatever the file of
the script is called. -/
theorem Started.naming (h : b.Started) : ∃ file,
    b.options = b.settings.compileOptions (NamingScript.namer file b.script).1.toOption := by
  obtain ⟨settings, cache, emit, t, t', log, run⟩ := h
  rw [start, FileTree.bind_apply] at run
  generalize (Library.load settings.loadOptions (settings.path settings.views) :
    StateM FileTree (Except LoadError (Library × List LogRecord))) t = loaded at run
  obtain ⟨result, t₁⟩ := loaded
  cases result with
  | error e => cases run
  | ok found =>
    obtain ⟨file, more, naming⟩ := settings.naming_apply t₁
    dsimp only at run
    rw [FileTree.bind_apply, naming, FileTree.bind_apply] at run
    cases Except.ok.inj (Prod.mk.inj (Prod.mk.inj run).1).1
    exact ⟨file, rfl⟩

/-- **The options of builds that agree** have the same effect. -/
theorem Agrees.options (agrees : b.Agrees b') (h : b.Started) (h' : b'.Started) {ρ : Bytes → Bytes}
    (files : ρ ({ b.options with fileName := path } : CompileOptions).file
      = ρ ({ b'.options with fileName := path' } : CompileOptions).file) :
    CompileOptions.Alike ρ { b.options with fileName := path }
      { b'.options with fileName := path' } := by
  obtain ⟨script, options⟩ := h.naming
  obtain ⟨script', options'⟩ := h'.naming
  have namings := NamingScript.namer_file script script' b'.script
  rw [agrees.script] at options
  generalize (NamingScript.namer script b'.script).1.toOption = naming at options namings
  generalize (NamingScript.namer script' b'.script).1.toOption = naming' at options' namings
  rw [options, options'] at files ⊢
  have reserved : b.settings.reserved.getD [] = b'.settings.reserved.getD [] := by
    rw [agrees.settings.reserved]
  cases namings with
  | none =>
    exact ⟨agrees.settings.moduleMode, reserved, fun _ => rfl, agrees.settings.rootName, rfl, files⟩
  | some same =>
    exact ⟨agrees.settings.moduleMode, reserved, same, agrees.settings.rootName, rfl, files⟩

/-- The file of the root goes by one name. -/
theorem Agrees.file_eq (agrees : b.Agrees b') (h : b.Started) (h' : b'.Started) (path : Bytes) :
    id ({ b.options with fileName := path } : CompileOptions).file
      = id ({ b'.options with fileName := path } : CompileOptions).file := by
  obtain ⟨script, options⟩ := h.naming
  obtain ⟨script', options'⟩ := h'.naming
  have roots : ∀ (s : Settings) (naming : Option Naming),
      ({ s.compileOptions naming with fileName := path } : CompileOptions).file
        = if path.isEmpty then if s.rootName.isEmpty then Script.rootName else s.rootName
          else path := by
    intro s naming
    cases naming <;> rfl
  rw [options, options', roots, roots, agrees.settings.rootName]

/-! ## Files -/

theorem Agrees.printOptions (agrees : b.Agrees b') (file : Bytes) :
    b.settings.printOptions file = b'.settings.printOptions file := by
  unfold Settings.printOptions
  rw [agrees.settings.exported, agrees.settings.sourceMaps, agrees.settings.moduleMode,
    agrees.settings.splitModules]

/-- What a compilation without the cache generates, if it succeeds. -/
def generated (b : Build) (path name source : Bytes) : Option (List CachedFile) :=
  (b.compiled path name source).1.toOption.map Built.files

theorem generated_eq (b : Build) (path name source : Bytes) :
    b.generated path name source
      = (compile { b.options with fileName := path } b.library source).1.toOption.bind
          fun p => (b.files name p).toOption := by
  unfold generated compiled
  generalize compile { b.options with fileName := path } b.library source = made
  obtain ⟨result, log⟩ := made
  cases result with
  | error e => rfl
  | ok p =>
    show Option.map Built.files (Except.toOption (b.files name p >>= fun files => _))
      = (b.files name p).toOption
    cases b.files name p <;> rfl

theorem Agrees.files (agrees : b.Agrees b') (name : Bytes) (p : Program) :
    b.files name p = b'.files name p := by
  unfold Build.files
  rw [agrees.emit, agrees.printOptions]

/-- Files that do not show the path of the template do not change with it. -/
theorem files_refile (compiles : b.emit ≠ .outline) (hidden : b.showsPath = false)
    (ρ : Bytes → Bytes) (name : Bytes) (p : Program) :
    (b.files name (p.refile ρ)).toOption = (b.files name p).toOption := by
  unfold showsPath at hidden
  unfold Build.files
  cases emit : b.emit with
  | outline => exact absurd emit compiles
  | code => rw [emit] at hidden; cases hidden
  | script =>
    rw [emit] at hidden
    have printed : PrintError.Alike id ((p.refile ρ).print (b.settings.printOptions (name ++ ".js")))
        (p.print (b.settings.printOptions (name ++ ".js"))) := p.print_refile hidden
    have kept := congrArg (Option.map (List.map Build.kept)) printed
    revert kept
    generalize (p.refile ρ).print _ = refiled
    generalize p.print _ = plain
    cases refiled <;> cases plain <;> exact id

/-- **Builds that agree generate the same files** for one path, and for any
two paths if these do not show. -/
theorem Agrees.generated (agrees : b.Agrees b') (h : b.Started) (h' : b'.Started)
    (compiles : b.emit ≠ .outline) (paths : path = path' ∨ b.showsPath = false) (name source : Bytes) :
    b.generated path name source = b'.generated path' name source := by
  rw [generated_eq, generated_eq]
  rcases paths with rfl | hidden
  · have same := compile_alike (agrees.options h h' (agrees.file_eq h h' path)) agrees.library source
    rw [funext Program.refile_id, Option.map_id', Option.map_id'] at same
    simp only [same, agrees.files name]
  · -- With all files under one name, nothing of the path is left.
    have options : CompileOptions.Alike (fun _ => []) { b.options with fileName := path }
        { b'.options with fileName := path' } := agrees.options h h' rfl
    have same := compile_alike options agrees.library source
    have through : ∀ r : Option Program, (r.bind fun p => (b.files name p).toOption)
        = (r.map (Program.refile fun _ => [])).bind fun p => (b.files name p).toOption := by
      intro r
      cases r with
      | none => rfl
      | some p => exact (files_refile compiles hidden _ name p).symm
    simp only [← agrees.files name]
    exact (through _).trans ((congrArg (Option.bind · _) same).trans (through _).symm)

/-- **Without a cache** a template gives what it compiles to, and no file changes. -/
theorem throughCache_bare (noCache : b.cache = none) (path name source : Bytes) (t : FileTree) :
    ∃ log, (b.throughCache path name source :
      StateM FileTree (Except TemplateFailure Built × List LogRecord)) t
        = (((b.compiled path name source).1, log), t) := by
  unfold throughCache lookup keep
  rw [noCache]
  dsimp only
  rw [FileTree.bind_apply]
  dsimp only [pure, StateT.pure]
  cases result : (b.compiled path name source).1 <;> exact ⟨_, rfl⟩

end Build

end TemplateCompiler
