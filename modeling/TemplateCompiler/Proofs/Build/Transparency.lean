import TemplateCompiler.Proofs.Build.Dependence

/-!
# The cache and what is generated

A template that is built through the cache may get files that an earlier call
left there. `Cache.Serves` says which calls were made over one cache, in which
order, and with which edits between them. Along such a history every entry of
the cache is one that an earlier call left (`Cache.Serves.kept`). Since a key
covers everything but the path of the template, the files of a call are those
that it would generate by itself, at its own path or at that of an earlier call
of the same key (`template_transparent`). Where the path shows, the two can
differ: `secondTwin_gets_other_code` gives two templates of one name and one
source, of which the second is given the code of the first.
-/

open List

namespace TemplateCompiler

open FileTree (Brings Gains)

variable {x : Call}

/-- A digest has 32 bytes. -/
theorem length_sha256 (bs : Bytes) : (sha256 bs).length = 32 := by
  simp [sha256, Sha256.State.bytes, Bytes.length_bigEndian]

namespace Cache

variable {c : Cache} {t t' : FileTree} {key key' : Bytes} {e e' : CacheEntry}

/-! ## Entries -/

/-- **The cache holds an entry under a key**: the file of the key says so. -/
def Holds (c : Cache) (t : FileTree) (key : Bytes) (e : CacheEntry) : Prop :=
  ∃ content, t.find? (t.lexical (c.path key)) = some (.file content) ∧ reply key content = .hit e

/-- An entry as it is kept under a key. -/
def stored (key : Bytes) (e : CacheEntry) : CacheEntry :=
  { e with schema := CacheEntry.version, key }

theorem get_snd (c : Cache) (key : Bytes) (t : FileTree) :
    ((c.get key : StateM FileTree CacheReply) t).2 = t := by
  unfold get
  split
  · rfl
  · rw [FileTree.read_bind]
    cases t.read (c.path key) with
    | ok content => rfl
    | error e =>
      dsimp only
      split
      · rfl
      · split <;> rfl

theorem holds_of_get (h : ((c.get key : StateM FileTree CacheReply) t).1 = .hit e) :
    c.Holds t key e := by
  unfold get at h
  split at h
  · cases h
  · rw [FileTree.read_bind] at h
    cases read : t.read (c.path key) with
    | ok content =>
      rw [read] at h
      exact ⟨content, FileTree.find?_of_read read, h⟩
    | error e =>
      rw [read] at h
      dsimp only at h
      split at h
      · cases h
      · split at h <;> cases h

/-- Keeping an entry brings no other file. -/
theorem put_brings (c : Cache) (key : Bytes) (e : CacheEntry) :
    Brings (c.put key e) (· = (stored key e).pack.encode) := by
  unfold put
  split
  · exact .pure _
  · refine .bind (FileTree.makeFolders_brings _) fun made => ?_
    cases made with
    | error => exact .pure _
    | ok =>
      refine .bind (FileTree.replace_brings _ _ _) fun replaced => ?_
      cases replaced <;> exact .pure _

/-- **A kept entry is found under its own key only**, as it was. -/
theorem reply_stored (fits : (stored key' e').Fits)
    (h : reply key (stored key' e').pack.encode = .hit e) : key = key' ∧ e = stored key' e' := by
  unfold reply at h
  rw [CacheEntry.unpack_pack fits] at h
  dsimp only at h
  split at h
  · next same =>
    have keys := beq_iff_eq.1 (Bool.and_eq_true_iff.1 same).2
    exact ⟨keys.symm, (CacheReply.hit.inj h).symm⟩
  · cases h

/-- What the cache holds after a step was there before, or is new. -/
theorem Holds.of_gains {expected : Bytes → Prop} (gains : Gains expected t t') (h : c.Holds t' key e) :
    c.Holds t key e ∨ ∃ content, expected content ∧ reply key content = .hit e := by
  obtain ⟨content, there, hit⟩ := h
  rw [FileTree.lexical_congr gains.current] at there
  rcases gains.files _ _ there with old | new
  · exact .inl ⟨content, old, hit⟩
  · exact .inr ⟨content, new, hit⟩

end Cache

namespace Build

variable {b : Build} {path name source : Bytes} {t : FileTree} {built : Built}

/-! ## One call -/

/-- The entry that a result is kept as. -/
def entry (b : Build) (name source : Bytes) (built : Built) : CacheEntry :=
  Cache.stored (b.key name source) (entryOf built)

/-- What the cache and the compiler give, with the files that are there then. -/
def served (b : Build) (path name source : Bytes) (t : FileTree) :
    (Except TemplateFailure Built × List LogRecord) × FileTree :=
  (b.throughCache path name source : StateM FileTree _) t

theorem lookup_apply (b : Build) (path key : Bytes) (t : FileTree) :
    ∃ found log, (b.lookup path key : StateM FileTree (Option Built × List LogRecord)) t
        = ((found, log), t)
      ∧ ∀ built, found = some built →
        ∃ c e, b.cache = some c ∧ c.Holds t key e ∧ built = b.ofEntry e := by
  unfold lookup
  cases b.cache with
  | none => exact ⟨none, [], rfl, fun _ none => by cases none⟩
  | some c =>
    dsimp only
    rw [FileTree.bind_apply, c.get_snd]
    cases reply : ((c.get key : StateM FileTree CacheReply) t).1 with
    | hit e =>
      refine ⟨some (b.ofEntry e), _, rfl, fun built same => ?_⟩
      exact ⟨c, e, rfl, Cache.holds_of_get reply, (Option.some.inj same).symm⟩
    | miss | stale | failed => exact ⟨none, _, rfl, fun _ none => by cases none⟩

theorem keep_brings (b : Build) (path key : Bytes) (built : Built) :
    Brings (b.keep path key built) (· = (Cache.stored key (entryOf built)).pack.encode) := by
  unfold keep
  cases b.cache with
  | none => exact .pure _
  | some c =>
    refine .bind (c.put_brings key _) fun kept => ?_
    cases kept <;> exact .pure _

/-- **A call brings no file but its own entry.** -/
theorem throughCache_brings (b : Build) (path name source : Bytes) :
    Brings (b.throughCache path name source) fun content => ∃ built,
      (b.compiled path name source).1 = .ok built
        ∧ content = (b.entry name source built).pack.encode := by
  intro t
  unfold throughCache
  obtain ⟨found, log, looked, -⟩ := b.lookup_apply path (b.key name source) t
  rw [FileTree.bind_apply, looked]
  cases found with
  | some built => exact .refl t
  | none =>
    dsimp only
    cases result : (b.compiled path name source).1 with
    | error e => exact .refl t
    | ok built =>
      have keeps : Brings (do
          let more ← b.keep path (b.key name source) built
          return (Except.ok built, log ++ (b.compiled path name source).2 ++ more) :
          StateM FileTree (Except TemplateFailure Built × List LogRecord)) _ :=
        .bind (b.keep_brings path (b.key name source) built) fun _ => .pure _
      exact (keeps t).mono fun content new => ⟨built, rfl, new⟩

/-- **What a call gives** is an entry of the cache, or what it generates. -/
theorem served_ok (h : (b.served path name source t).1.1 = .ok built) :
    (∃ c e, b.cache = some c ∧ c.Holds t (b.key name source) e ∧ built = b.ofEntry e)
      ∨ (b.compiled path name source).1 = .ok built := by
  unfold served throughCache at h
  obtain ⟨found, log, looked, entries⟩ := b.lookup_apply path (b.key name source) t
  rw [FileTree.bind_apply, looked] at h
  cases found with
  | some kept => exact .inl (entries built (congrArg some (Except.ok.inj h)))
  | none =>
    dsimp only at h
    cases result : (b.compiled path name source).1 with
    | error e => rw [result] at h; cases h
    | ok made => rw [result] at h; exact .inr h

end Build

/-- **A call**: a build of the template at a path, on the files that are there. -/
structure Call where
  build : Build
  path : Bytes
  tree : FileTree

namespace Call

/-- The call itself. -/
def run (x : Call) : (Outcome × List LogRecord) × FileTree :=
  (x.build.template x.path : StateM FileTree (Outcome × List LogRecord)) x.tree

/-- What the call gives. -/
def result (x : Call) : Except TemplateFailure Built := x.run.1.1.result

/-- **The naming script still reads as it did** when the build was started. -/
def Fresh (x : Call) : Prop :=
  ((x.build.settings.scriptText : StateM FileTree Bytes) x.tree).1 = x.build.script

/-- The same call without a cache. -/
def bare (x : Call) : Call := { x with build := { x.build with cache := none } }

/-- The name of the template. -/
def name (x : Call) : Bytes := Path.stem x.path

/-- The source of the template, if the file can be read. -/
def source? (x : Call) : Option Bytes :=
  (x.tree.read x.path).toOption.map x.build.settings.loadOptions.preprocess

/-- The key of the template. -/
def key? (x : Call) : Option Bytes := x.source?.map (x.build.key x.name)

/-- What is digested for the key. -/
def input? (x : Call) : Option Bytes := x.source?.map (x.build.input x.name)

/-- The files that the call would generate by itself for its template at
another path. -/
def filesAt (x : Call) (path : Bytes) : Option (List CachedFile) :=
  x.source?.bind fun source =>
    if x.build.emit == .outline then (Build.outlined x.name source).toOption.map Built.files
    else x.build.generated path x.name source

/-- **The ways of a call**: the template cannot be read, it is outlined, or it
goes through the cache. -/
theorem run_cases (fresh : x.Fresh) :
    (x.source? = none ∧ x.run.2 = x.tree ∧ x.result.toOption = none)
      ∨ ∃ source, x.source? = some source ∧
        if x.build.emit = .outline then x.run.2 = x.tree ∧ x.result = Build.outlined x.name source
        else x.result = (x.build.served x.path x.name source x.tree).1.1
          ∧ x.run.2 = (x.build.served x.path x.name source x.tree).2 := by
  unfold source? result run Build.template
  rw [FileTree.read_bind]
  cases x.tree.read x.path with
  | error e => exact .inl ⟨rfl, rfl, rfl⟩
  | ok content =>
    refine .inr ⟨_, rfl, ?_⟩
    dsimp only
    by_cases outline : x.build.emit = .outline
    · rw [if_pos outline, outline]
      exact ⟨rfl, rfl⟩
    · have tree : ((x.build.settings.scriptText : StateM FileTree Bytes) x.tree).2 = x.tree := by
        rw [Settings.scriptText_apply]
      rw [if_neg outline, if_neg (by simpa using outline), FileTree.bind_apply, tree, fresh]
      exact ⟨rfl, rfl⟩

/-- **The entry that a call leaves** in the cache, if it has to compile. -/
def Leaves (x : Call) (key : Bytes) (e : CacheEntry) : Prop :=
  x.build.emit ≠ .outline ∧ x.key? = some key ∧ ∃ source built, x.source? = some source
    ∧ (x.build.compiled x.path x.name source).1 = .ok built ∧ e = x.build.entry x.name source built

/-- **A call brings no file but the entry that it leaves.** -/
theorem run_gains (fresh : x.Fresh) :
    Gains (fun content => ∃ key e, x.Leaves key e ∧ content = e.pack.encode) x.tree x.run.2 := by
  obtain ⟨-, tree, -⟩ | ⟨source, sources, way⟩ := run_cases fresh
  · exact tree ▸ .refl _
  · split at way
    · exact way.1 ▸ .refl _
    · next compiles =>
      rw [way.2]
      refine (x.build.throughCache_brings _ _ _ x.tree).mono fun content new => ?_
      obtain ⟨built, made, packed⟩ := new
      exact ⟨_, _, ⟨compiles, by rw [key?, sources]; rfl, _, built, sources, made, rfl⟩, packed⟩

theorem filesAt_eq {source : Bytes} (sources : x.source? = some source)
    (compiles : x.build.emit ≠ .outline) (path : Bytes) :
    x.filesAt path = x.build.generated path x.name source := by
  rw [filesAt, sources, Option.bind_some, if_neg (by simpa using compiles)]

theorem bare_result (fresh : x.Fresh) :
    x.bare.result.toOption.map Built.files = x.filesAt x.path := by
  obtain ⟨sources, -, failed⟩ | ⟨source, sources, way⟩ := run_cases (x := x.bare) fresh
  · rw [failed, filesAt, show x.source? = none from sources]
    rfl
  · split at way
    · next outline =>
      rw [way.2, filesAt, show x.source? = some source from sources,
        show x.build.emit = .outline from outline]
      rfl
    · next compiles =>
      rw [way.1, Build.served, (Build.throughCache_bare rfl _ _ _ _).choose_spec,
        filesAt_eq (x := x) sources compiles]
      rfl

end Call

/-! ## Bounded lengths -/

/-- **A result whose texts are of bounded length.** -/
structure Built.Fits (built : Built) : Prop where
  few : built.files.length < Unpack.limit
  files : ∀ f ∈ built.files, f.name.length < Unpack.limit ∧ f.code.length < Unpack.limit
    ∧ ∀ map ∈ f.sourceMap, map.length < Unpack.limit
  units : ∀ u ∈ built.units, Packed.Fits u.inputs ∧ Packed.Fits u.locals

/-- **A call whose key and result are made from texts of bounded length.** -/
structure Call.Fits (x : Call) : Prop where
  key : ∀ source ∈ x.source?, x.build.Fits x.name source
  built : ∀ source ∈ x.source?, ∀ built,
    (x.build.compiled x.path x.name source).1 = .ok built → built.Fits

/-- No source map is empty. -/
theorem SourceMap.json_ne_nil (map : SourceMap) : map.json ≠ [] :=
  append_ne_nil_of_right_ne_nil _ (by decide)

namespace Build

variable {b : Build} {path name source : Bytes} {built : Built}

theorem files_sourceMap {p : Program} {fs : List CachedFile} (h : b.files name p = .ok fs) :
    ∀ f ∈ fs, ∀ map ∈ f.sourceMap, map ≠ [] := by
  unfold files at h
  split at h
  · cases h
    intro f mem map mapped
    rw [mem_singleton.1 mem] at mapped
    cases mapped
  · split at h
    · cases h
      intro f mem map mapped
      obtain ⟨g, -, rfl⟩ := mem_map.1 mem
      obtain ⟨m, -, rfl⟩ := Option.map_eq_some_iff.1 mapped
      exact m.json_ne_nil
    · cases h

/-- **The entry of a bounded result fits the packed form.** -/
theorem entry_fits (made : (b.compiled path name source).1 = .ok built) (fits : built.Fits) :
    (b.entry name source built).Fits := by
  have maps : ∀ f ∈ built.files, ∀ map ∈ f.sourceMap, map ≠ [] := by
    have generated : b.generated path name source = some built.files := by
      rw [generated, made]
      rfl
    rw [generated_eq] at generated
    obtain ⟨p, -, printed⟩ := Option.bind_eq_some_iff.1 generated
    cases files : b.files name p with
    | error e => rw [files] at printed; cases printed
    | ok fs =>
      rw [files] at printed
      cases Option.some.inj printed
      exact files_sourceMap files
  have root : ∀ u, built.units.getLast? = some u → Packed.Fits u.inputs ∧ Packed.Fits u.locals :=
    fun u last => fits.units u (mem_of_getLast? last)
  have version : CacheEntry.version < 65536 := by decide
  refine ⟨version, ?_, fits.few, fun f mem => ?_, fun l mem => ?_, fun l mem => ?_⟩
  · show (Bytes.toHex (sha256 _)).length < Unpack.limit
    rw [Bytes.length_toHex, length_sha256]
    decide
  · obtain ⟨name, code, map⟩ := fits.files f mem
    exact ⟨name, code, fun m there => ⟨maps f mem m there, map m there⟩⟩
  · obtain ⟨u, last, rfl⟩ := Option.map_eq_some_iff.1 mem
    exact (root u last).1
  · obtain ⟨u, last, rfl⟩ := Option.map_eq_some_iff.1 mem
    exact (root u last).2

end Build

/-! ## Histories -/

/-- **The calls that were made over a cache**, the last one first, and the files
that are there after them. Before the first call the cache holds nothing.
Between calls files may change in any way that puts no entry into the cache, as
long as the naming script of a started build stays as it is. -/
inductive Cache.Serves (c : Cache) : List Call → FileTree → Prop
  | start {t : FileTree} (nothing : ∀ key e, ¬c.Holds t key e) : Serves c [] t
  | edit {calls : List Call} {t t' : FileTree} (before : Serves c calls t)
      (noNew : ∀ key e, c.Holds t' key e → c.Holds t key e) : Serves c calls t'
  | call {calls : List Call} {x : Call} (before : Serves c calls x.tree)
      (started : x.build.Started) (fresh : x.Fresh) (cache : ∀ c', x.build.cache = some c' → c' = c) :
      Serves c (x :: calls) x.run.2

namespace Cache.Serves

variable {c : Cache} {t : FileTree} {calls : List Call}

theorem started (h : c.Serves calls t) : ∀ x ∈ calls, x.build.Started := by
  induction h with
  | start => exact fun _ mem => absurd mem not_mem_nil
  | edit _ _ ih => exact ih
  | call _ started _ _ ih => exact forall_mem_cons.2 ⟨started, ih⟩

/-- The calls before a call. -/
theorem before {later earlier : List Call} (h : c.Serves (later ++ x :: earlier) t) :
    c.Serves earlier x.tree ∧ x.build.Started ∧ x.Fresh ∧ ∀ c', x.build.cache = some c' → c' = c := by
  generalize same : later ++ x :: earlier = calls at h
  induction h generalizing later with
  | start => simp at same
  | edit _ _ ih => exact ih same
  | call before started fresh cache ih =>
    cases later with
    | nil =>
      cases same
      exact ⟨before, started, fresh, cache⟩
    | cons y later => exact ih (List.cons.inj same).2

/-- **Every entry of the cache was left by an earlier call.** -/
theorem kept (h : c.Serves calls t) (fits : ∀ x ∈ calls, x.Fits) {key : Bytes} {e : CacheEntry}
    (holds : c.Holds t key e) : ∃ x ∈ calls, x.Leaves key e := by
  induction h generalizing key e with
  | start nothing => exact absurd holds (nothing key e)
  | edit _ noNew ih => exact ih fits (noNew key e holds)
  | @call calls x _ _ fresh _ ih =>
    obtain ⟨here, others⟩ := forall_mem_cons.1 fits
    rcases holds.of_gains (Call.run_gains fresh) with old | ⟨content, ⟨key', e', left, rfl⟩, hit⟩
    · obtain ⟨y, mem, leaves⟩ := ih others old
      exact ⟨y, mem_cons_of_mem _ mem, leaves⟩
    · have leaves := left
      obtain ⟨-, keys, source, built, sources, made, rfl⟩ := left
      rw [Call.key?, sources] at keys
      cases Option.some.inj keys
      obtain ⟨rfl, rfl⟩ :=
        reply_stored (Build.entry_fits made (here.built source sources built made)) hit
      exact ⟨x, mem_cons_self, leaves⟩

end Cache.Serves

/-! ## Transparency -/

namespace Call

variable {x y : Call} {built : Built}

/-- **A call gives what it generates, or an entry that the cache holds** under
its key. -/
theorem result_cases (fresh : x.Fresh) (ok : x.result = .ok built) :
    x.filesAt x.path = some built.files
      ∨ ∃ c key e, x.build.cache = some c ∧ x.key? = some key ∧ c.Holds x.tree key e
        ∧ built.files = e.files ∧ x.build.emit ≠ .outline := by
  obtain ⟨-, -, failed⟩ | ⟨source, sources, way⟩ := run_cases fresh
  · rw [ok] at failed
    cases failed
  · split at way
    · next outline =>
      left
      rw [filesAt, sources, outline, Option.bind_some, if_pos (by decide), ← way.2, ok]
      rfl
    · next compiles =>
      rw [way.1] at ok
      rcases Build.served_ok ok with ⟨c, e, cache, holds, rfl⟩ | made
      · exact .inr ⟨c, _, e, cache, by rw [key?, sources]; rfl, holds, rfl, compiles⟩
      · left
        rw [filesAt_eq sources compiles, Build.generated, made]
        rfl

/-- **An entry that one call left serves another of its key**: it has the files
that the other generates at the path of the first, and at any path if that does
not show. -/
theorem Leaves.filesAt {key path : Bytes} {e : CacheEntry} (left : y.Leaves key e)
    (keys : x.key? = some key) (started : x.build.Started) (started' : y.build.Started)
    (fits : x.Fits) (fits' : y.Fits)
    (free : ∀ i ∈ x.input?, ∀ j ∈ y.input?, sha256 i = sha256 j → i = j)
    (compiles : x.build.emit ≠ .outline) (paths : path = y.path ∨ x.build.showsPath = false) :
    x.filesAt path = some e.files := by
  obtain ⟨-, keys', source', built, sources', made, rfl⟩ := left
  obtain ⟨source, sources, rfl⟩ := Option.map_eq_some_iff.1 keys
  rw [key?, sources', Option.map_some] at keys'
  have inputs : sha256 (x.build.input x.name source) = sha256 (y.build.input y.name source') →
      x.build.input x.name source = y.build.input y.name source' :=
    free _ (by rw [input?, sources]; rfl) _ (by rw [input?, sources']; rfl)
  obtain ⟨agrees, names, rfl⟩ := Build.key_inj (fits.key source sources)
    (fits'.key source' sources') inputs (Option.some.inj keys').symm
  rw [filesAt_eq sources compiles, agrees.generated started started' compiles paths, names,
    Build.generated, made]
  rfl

end Call

/-- **The cache is transparent up to the path of the template.** Along any
history of calls over one cache, a call that succeeds gets the files that it
would generate by itself with its template at some path, its own or that of an
earlier call of the same key. These are the files of the same call without a
cache if the path does not show in them, or if the earlier calls of the key were
at the same path. -/
theorem template_transparent {c : Cache} {later earlier : List Call} {x : Call} {t : FileTree}
    {built : Built} (history : c.Serves (later ++ x :: earlier) t)
    (fits : ∀ y ∈ x :: earlier, y.Fits)
    (free : ∀ y ∈ earlier, ∀ i ∈ x.input?, ∀ j ∈ y.input?, sha256 i = sha256 j → i = j)
    (ok : x.result = .ok built) :
    (∃ path, (path = x.path ∨ ∃ y ∈ earlier, y.key? = x.key? ∧ y.path = path)
        ∧ x.filesAt path = some built.files)
      ∧ ((x.build.showsPath = false ∨ ∀ y ∈ earlier, y.key? = x.key? → y.path = x.path) →
        x.bare.result.toOption.map Built.files = some built.files) := by
  obtain ⟨before, started, fresh, cache⟩ := history.before
  obtain ⟨here, others⟩ := List.forall_mem_cons.1 fits
  rw [Call.bare_result fresh]
  rcases Call.result_cases fresh ok with generated | ⟨c', key, e, cached, keys, holds, files, compiles⟩
  · exact ⟨⟨x.path, .inl rfl, generated⟩, fun _ => generated⟩
  · cases cache c' cached
    obtain ⟨y, mem, left⟩ := before.kept others holds
    have same : y.key? = x.key? := left.2.1.trans keys.symm
    have serves : ∀ {path}, path = y.path ∨ x.build.showsPath = false →
        x.filesAt path = some built.files := fun paths => files ▸
      left.filesAt keys started (before.started y mem) here (others y mem) (free y mem) compiles paths
    refine ⟨⟨y.path, .inr ⟨y, mem, same, rfl⟩, serves (.inl rfl)⟩, fun hidden => ?_⟩
    rcases hidden with hidden | paths
    · exact serves (.inr hidden)
    · exact serves (.inl (paths y mem same).symm)

section

/-- The source of both twins. -/
def twinSource : Bytes := "\x7b\x7b x \x7d\x7d"

/-- Two templates of one name and one source, in different folders. -/
def twins : FileTree :=
  (FileTree.addFile {} "a/t.liquid" twinSource).addFile "b/t.liquid" twinSource

/-- A build that dumps code. -/
def dumping : Build where
  settings := {}
  library := {}
  options := ({} : Settings).compileOptions none
  script := []
  cache := some ⟨"cache"⟩
  emit := .code

/-- The call for the first of the twins. -/
def firstTwin : Call := ⟨dumping, "a/t.liquid", twins⟩

/-- The call for the second, when the first was made. -/
def secondTwin : Call := ⟨dumping, "b/t.liquid", firstTwin.run.2⟩

private theorem dumping_started : dumping.Started :=
  ⟨{}, some ⟨"cache"⟩, .code, twins, twins,
    [⟨.debug, "discovered partials", [("views", []), ("count", "0")]⟩], by cbv⟩

private theorem twin_fits {path : Bytes} (twin : path = "a/t.liquid" ∨ path = "b/t.liquid") :
    ∃ built, (dumping.compiled path "t" twinSource).1 = .ok built ∧ built.Fits := by
  rcases twin with rfl | rfl <;>
  · apply Exists.intro
    apply And.intro
    · conv => lhs; cbv
    · exact ⟨by decide +kernel, by decide +kernel, by unfold Packed.Fits; decide +kernel⟩

private theorem dumping_key : dumping.key "t" twinSource
    = "d3318ea082e8b3d2bccb83ef41d15a4d38222e72a4929a7d1a564307ca928b0c" := by
  -- Partials and settings are sorted on the way to the input, which the kernel does not follow.
  have digested : ∃ input, dumping.input "t" twinSource = input ∧ Bytes.toHex (sha256 input)
      = "d3318ea082e8b3d2bccb83ef41d15a4d38222e72a4929a7d1a564307ca928b0c" := by
    apply Exists.intro
    apply And.intro
    · conv => lhs; cbv
    · decide +kernel
  obtain ⟨input, rfl, digest⟩ := digested
  exact digest

set_option maxRecDepth 20000 in
private theorem twins_run : ∃ t, (dumping.served "a/t.liquid" "t" twinSource twins).2 = t
    ∧ t.read "b/t.liquid" = .ok twinSource
    ∧ ∃ built, (dumping.served "b/t.liquid" "t" twinSource t).1.1 = .ok built
      ∧ some built.files ≠ dumping.generated "b/t.liquid" "t" twinSource := by
  unfold Build.served Build.throughCache
  simp only [dumping_key]
  apply Exists.intro
  apply And.intro
  · conv => lhs; cbv
  refine ⟨by decide +kernel, ?_⟩
  apply Exists.intro
  apply And.intro
  · conv => lhs; cbv
  · conv => rhs; cbv
    decide +kernel

private theorem dumping_fresh (build : x.build = dumping) : x.Fresh := by
  rw [Call.Fresh, Settings.scriptText_apply, build]
  rfl

private theorem twin_source (build : x.build = dumping)
    (read : x.tree.read x.path = .ok twinSource) : x.source? = some twinSource := by
  rw [Call.source?, read, build]
  cbv

private theorem twin_run (build : x.build = dumping) (name : x.name = "t")
    (read : x.tree.read x.path = .ok twinSource) :
    x.result = (dumping.served x.path "t" twinSource x.tree).1.1
      ∧ x.run.2 = (dumping.served x.path "t" twinSource x.tree).2 := by
  obtain ⟨none, -⟩ | ⟨source, sources, way⟩ := Call.run_cases (dumping_fresh build)
  · cases none.symm.trans (twin_source build read)
  · cases sources.symm.trans (twin_source build read)
    rw [build, name, if_neg (by decide)] at way
    exact way

private theorem twinCall_fits (build : x.build = dumping)
    (twin : x.path = "a/t.liquid" ∨ x.path = "b/t.liquid")
    (read : x.tree.read x.path = .ok twinSource) : x.Fits := by
  have name : x.name = "t" := by
    rw [Call.name]
    rcases twin with path | path <;> rw [path] <;> decide
  have sources := twin_source build read
  refine ⟨fun source mem => ?_, fun source mem built made => ?_⟩ <;>
    cases Option.some.inj (sources.symm.trans mem)
  · rw [build, name]
    exact ⟨by decide +kernel, forall_mem_nil _,
      ⟨fun _ none => (nomatch none), by decide +kernel, by decide +kernel⟩, by decide +kernel⟩
  · obtain ⟨other, same, fits⟩ := twin_fits twin
    rw [build, name, same] at made
    cases made
    exact fits

/-- No file of the twins is an entry of a cache. -/
private theorem twins_hold_nothing (c : Cache) (key : Bytes) (e : CacheEntry) :
    ¬ c.Holds twins key e := by
  rintro ⟨content, there, hit⟩
  have files : ∀ entry ∈ twins.entries, entry.2 = .folder ∨ entry.2 = .file twinSource := by
    decide +kernel
  have content_eq : content = twinSource := by
    unfold FileTree.find? at there
    split at there
    · cases there
    · obtain ⟨before, after, same, -⟩ := lookup_eq_some_iff.1 there
      have mem := same ▸ mem_append_right before mem_cons_self
      rcases files _ mem with folder | file
      · cases folder
      · exact FileEntry.file.inj file
  subst content_eq
  have junk : (CacheEntry.unpack twinSource).toOption = none := by cbv
  unfold Cache.reply at hit
  cases unpacked : CacheEntry.unpack twinSource with
  | error => rw [unpacked] at hit; cases hit
  | ok => rw [unpacked] at junk; cases junk

private theorem twins_served :
    Cache.Serves ⟨"cache"⟩ ([] ++ secondTwin :: [firstTwin]) secondTwin.run.2 :=
  .call (.call (.start (twins_hold_nothing _)) dumping_started (dumping_fresh rfl)
    fun _ same => (Option.some.inj same).symm) dumping_started (dumping_fresh rfl)
    fun _ same => (Option.some.inj same).symm

private theorem firstTwin_reads : firstTwin.tree.read firstTwin.path = .ok twinSource := by
  decide +kernel

/-- What the second twin finds and gets: not the files of its own path. -/
private theorem secondTwin_gets : secondTwin.tree.read secondTwin.path = .ok twinSource
    ∧ ∃ built, secondTwin.result = .ok built
      ∧ some built.files ≠ dumping.generated "b/t.liquid" "t" twinSource := by
  obtain ⟨t, left, read, built, got, other⟩ := twins_run
  have tree : secondTwin.tree = t := (twin_run rfl (by decide) firstTwin_reads).2.trans left
  have reads : secondTwin.tree.read secondTwin.path = .ok twinSource := tree ▸ read
  refine ⟨reads, built, ?_, other⟩
  rw [(twin_run rfl (by decide) reads).1, tree]
  exact got

/-- **Twins share their key**, so the second one gets the files of the first. -/
theorem secondTwin_transparent : ∃ built, secondTwin.result = .ok built
    ∧ ((∃ path, (path = secondTwin.path
          ∨ ∃ y ∈ [firstTwin], y.key? = secondTwin.key? ∧ y.path = path)
        ∧ secondTwin.filesAt path = some built.files)
      ∧ ((secondTwin.build.showsPath = false
          ∨ ∀ y ∈ [firstTwin], y.key? = secondTwin.key? → y.path = secondTwin.path) →
        secondTwin.bare.result.toOption.map Built.files = some built.files)) := by
  obtain ⟨reads, built, ok, -⟩ := secondTwin_gets
  refine ⟨built, ok, template_transparent twins_served ?_ ?_ ok⟩
  · exact List.forall_mem_cons.2 ⟨twinCall_fits rfl (.inr rfl) reads,
      List.forall_mem_singleton.2 (twinCall_fits rfl (.inl rfl) firstTwin_reads)⟩
  · refine List.forall_mem_singleton.2 fun i mem j mem' _ => ?_
    have same : secondTwin.input? = firstTwin.input? := by
      rw [Call.input?, Call.input?, Call.source?, Call.source?, reads, firstTwin_reads]
      rfl
    exact Option.some.inj (mem.symm.trans (same.trans mem'))

/-- **A template gets the code of another one.** The second twin is given code
that says it comes from the file of the first. -/
theorem secondTwin_gets_other_code :
    Cache.Serves ⟨"cache"⟩ [secondTwin, firstTwin] secondTwin.run.2 ∧ ∃ built, secondTwin.result = .ok built
      ∧ secondTwin.bare.result.toOption.map Built.files ≠ some built.files := by
  obtain ⟨reads, built, ok, other⟩ := secondTwin_gets
  refine ⟨twins_served, built, ok, fun same => other ?_⟩
  rw [Call.bare_result (dumping_fresh rfl),
    Call.filesAt_eq (twin_source rfl reads) (by decide)] at same
  exact same.symm

end

end TemplateCompiler
