import TemplateCompiler.Files.Tree
import Mathlib

/-!
# What operations leave in a file tree

A path that can be followed leads to the place its text tells
(`FileTree.lexical`), whatever folders there are. So what an operation changes
can be said place by place: making folders brings no content, and replacing a
file brings the new content only (`Gains`). Both leave the files at other
places as they are (`Spares`).
-/

open List

namespace TemplateCompiler

variable {entry : FileEntry}

namespace FileTree

variable {t t' t'' : FileTree} {path beside content : Bytes} {place p : TreePlace}

/-! ## Places -/

/-- Where a component leads, as far as the text tells. -/
def move (place : TreePlace) (c : Bytes) : TreePlace :=
  if c == [Byte.dot] then place else if c == Path.parent then place.dropLast else place ++ [c]

/-- **The place of a path, as far as its text tells.** -/
def lexical (t : FileTree) (path : Bytes) : TreePlace :=
  ((Bytes.splitOn Byte.slash path).filter (!·.isEmpty)).foldl move (t.start path)

theorem enter_eq {c : Bytes} (h : t.enter place c = .ok p) : p = move place c := by
  unfold enter at h
  split at h
  · cases h
  · cases h
  · unfold move
    split at h
    · next dot => rw [if_pos dot]; cases h; rfl
    · next dot =>
      rw [if_neg dot]
      split at h
      · next up => rw [if_pos up]; cases h; rfl
      · next up => rw [if_neg up]; cases h; rfl

theorem foldlM_enter_eq {cs : List Bytes} (h : cs.foldlM t.enter place = .ok p) :
    p = cs.foldl move place := by
  induction cs generalizing place with
  | nil => cases h; rfl
  | cons c cs ih =>
    rw [foldlM_cons] at h
    cases entered : t.enter place c with
    | error e => rw [entered] at h; cases h
    | ok next =>
      rw [entered] at h
      rw [foldl_cons, ← enter_eq entered]
      exact ih h

/-- **A path that can be followed leads where its text tells.** -/
theorem resolve_eq (h : t.resolve path = .ok place) : place = t.lexical path := by
  unfold resolve at h
  split at h
  · cases h
  · exact foldlM_enter_eq h

/-- The place depends on the tree only where relative paths start. -/
theorem lexical_congr (same : t'.current = t.current) : t'.lexical path = t.lexical path := by
  unfold lexical start
  rw [same]

theorem find?_of_read (h : t.read path = .ok content) :
    t.find? (t.lexical path) = some (.file content) := by
  unfold read look at h
  cases resolved : t.resolve path with
  | error e => rw [resolved] at h; cases h
  | ok place =>
    rw [← resolve_eq resolved]
    rw [resolved] at h
    show t.find? place = _
    cases found : t.find? place with
    | none => simp [found, bind, Except.bind] at h
    | some entry =>
      cases entry with
      | folder => simp [found, bind, Except.bind] at h
      | file c =>
        simp only [found, bind, Except.bind] at h
        split at h
        · cases h
        · cases h
        · next eq =>
          split at eq
          · cases eq
          · cases eq; cases h; rfl

/-! ## Single changes -/

/-- Looking up among the entries at some places. -/
theorem lookup_filter (q : TreePlace → Bool) (entries : List (TreePlace × FileEntry)) (p : TreePlace) :
    (entries.filter fun e => q e.1).lookup p = if q p then entries.lookup p else none := by
  induction entries with
  | nil => simp
  | cons e entries ih =>
    obtain ⟨place, entry⟩ := e
    by_cases same : p = place
    · subst same
      by_cases kept : q p = true
      · simp [kept]
      · simpa [filter_cons, kept] using ih
    · have apart : (p == place) = false := beq_eq_false_iff_ne.2 same
      by_cases kept : q place = true
      · simpa [filter_cons, kept, lookup_cons, apart] using ih
      · simpa [filter_cons, kept, lookup_cons, apart] using ih

theorem find?_put_self (nonempty : place ≠ []) :
    (t.put place entry).find? place = some entry := by
  have fresh : (t.entries.filter fun e => e.1 != place).lookup place = none := by
    rw [lookup_filter (· != place), if_neg (by simp)]
  unfold find? put
  rw [if_neg (by simpa using nonempty), lookup_append, fresh]
  simp

theorem find?_put_of_ne (other : p ≠ place) :
    (t.put place entry).find? p = t.find? p := by
  have apart : (p == place) = false := beq_eq_false_iff_ne.2 other
  have rest : (t.entries.filter fun e => e.1 != place).lookup p = t.entries.lookup p := by
    rw [lookup_filter (· != place), if_pos (by simpa using other)]
  unfold find? put
  rw [lookup_append, rest]
  simp [lookup_cons, apart]

theorem find?_of_find?_drop (h : (t.drop place).find? p = some entry) :
    t.find? p = some entry := by
  unfold find? drop at *
  split at h
  · next root => rw [if_pos root]; exact h
  · next root =>
    rw [if_neg root]
    rw [lookup_filter fun p => !place.isPrefixOf p] at h
    split at h
    · exact h
    · cases h

theorem find?_drop_of_apart (apart : ¬ place <+: p) : (t.drop place).find? p = t.find? p := by
  have other : place.isPrefixOf p = false := eq_false_of_ne_true (mt isPrefixOf_iff_prefix.1 apart)
  unfold find? drop
  rw [lookup_filter fun p => !place.isPrefixOf p, other]
  rfl

theorem bind_apply {α β : Type} (x : StateM FileTree α) (next : α → StateM FileTree β)
    (t : FileTree) : (x >>= next) t = next (x t).1 (x t).2 := rfl

theorem change_apply (step : FileTree → Except FileError FileTree) (t : FileTree) :
    FileTree.change step t = match step t with
      | .ok t' => (.ok (), t')
      | .error e => (.error e, t) := rfl

/-! ## Gains -/

/-- **The tree `t'` has no file that `t` has not, unless its content is one of
those expected.** -/
structure Gains (expected : Bytes → Prop) (t t' : FileTree) : Prop where
  current : t'.current = t.current
  files : ∀ place content, t'.find? place = some (.file content) →
    t.find? place = some (.file content) ∨ expected content

namespace Gains

variable {expected : Bytes → Prop}

theorem refl (t : FileTree) : Gains expected t t := ⟨rfl, fun _ _ h => .inl h⟩

theorem trans (first : Gains expected t t') (second : Gains expected t' t'') :
    Gains expected t t'' where
  current := second.current.trans first.current
  files place content h := by
    rcases second.files place content h with h | h
    · exact first.files place content h
    · exact .inr h

theorem mono {expected' : Bytes → Prop} (h : Gains expected t t')
    (imp : ∀ content, expected content → expected' content) : Gains expected' t t' where
  current := h.current
  files place content there := (h.files place content there).imp_right (imp content)

theorem put (ok : ∀ content, entry = .file content → expected content) :
    Gains expected t (t.put place entry) where
  current := rfl
  files p content h := by
    by_cases same : p = place
    · subst same
      cases p with
      | nil => cases h
      | cons c cs =>
        rw [find?_put_self (cons_ne_nil c cs)] at h
        exact .inr (ok content (Option.some.inj h))
    · rw [find?_put_of_ne same] at h
      exact .inl h

theorem drop (t : FileTree) (place : TreePlace) : Gains expected t (t.drop place) where
  current := rfl
  files _ _ h := .inl (find?_of_find?_drop h)

end Gains

/-- **A step that brings no file** but with a content that is expected. -/
def Brings {α : Type} (step : StateM FileTree α) (expected : Bytes → Prop) : Prop :=
  ∀ t, Gains expected t (step t).2

namespace Brings

variable {α β : Type} {expected : Bytes → Prop}

theorem pure (a : α) : Brings (Pure.pure a) expected := fun t => .refl t

theorem bind {step : StateM FileTree α} {next : α → StateM FileTree β}
    (first : Brings step expected) (second : ∀ a, Brings (next a) expected) :
    Brings (step >>= next) expected := fun t => (first t).trans (second _ _)

end Brings

/-- **Making folders** only puts folders where nothing stood, one after the
other. -/
theorem makeFolders_steps {R : FileTree → FileTree → Prop} (refl : ∀ t, R t t)
    (trans : ∀ {t t' t''}, R t t' → R t' t'' → R t t'')
    (put : ∀ t place, t.find? place = none → R t (t.put place .folder)) (path : Bytes)
    (t : FileTree) : R t ((FileAccess.makeFolders path : StateM FileTree (Except FileError Unit)) t).2 := by
  have one (path : Bytes) (t : FileTree) : R t (FileTree.change (·.makeFolder path) t).2 := by
    rw [change_apply, makeFolder]
    cases resolved : t.resolve path with
    | error e => exact refl t
    | ok place =>
      cases found : t.find? place with
      | some entry => simpa [found, failed, bind, Except.bind, Except.mapError] using refl t
      | none => simpa [found, failed, bind, Except.bind, Except.mapError] using put t place found
  -- by the length of the path, as the folders above come first
  induction size : path.length using Nat.strongRecOn generalizing path t with
  | ind n ih =>
    have look : (FileAccess.isFolder path : StateM FileTree (Except FileError Bool)) t
        = (t.isFolder path, t) := rfl
    rw [FileAccess.makeFolders, bind_apply, look]
    cases t.isFolder path with
    | ok folder => cases folder <;> exact refl t
    | error e =>
      dsimp only
      split
      · next shorter =>
        refine trans (ih _ (size ▸ shorter.1) (FileAccess.before path) t rfl) ?_
        rw [bind_apply]
        generalize ((FileAccess.makeFolders (FileAccess.before path) :
          StateM FileTree (Except FileError Unit)) t) = above
        obtain ⟨_ | _, t'⟩ := above
        · exact refl t'
        · exact one path t'
      · exact one path t

/-- **Making folders brings no file.** -/
theorem makeFolders_brings {expected : Bytes → Prop} (path : Bytes) :
    Brings (FileAccess.makeFolders path) expected :=
  makeFolders_steps .refl .trans (fun _ _ _ => .put fun _ h => by cases h) path

/-- A written file has its content at the place of its path. -/
theorem write_ok (h : t.write path content = .ok t') :
    t' = t.put (t.lexical path) (.file content) ∧ t.lexical path ≠ [] := by
  unfold write at h
  cases resolved : t.resolve path with
  | error e => rw [resolved] at h; cases h
  | ok place =>
    rw [resolved] at h
    rw [← resolve_eq resolved]
    simp only [failed, bind, Except.bind] at h
    split at h
    · cases h
    · next other =>
      simp only [Except.mapError, Except.ok.injEq] at h
      exact ⟨h.symm, fun root => other (by rw [root]; rfl)⟩

/-- A renamed file leaves its old place, with all below it, for the new one. -/
theorem rename_ok {old new : Bytes} (h : t.rename old new = .ok t') : t.lexical new ≠ []
    ∧ ∃ entry, t.find? (t.lexical old) = some entry
      ∧ t' = (t.drop (t.lexical old)).put (t.lexical new) entry := by
  unfold rename at h
  cases resolved : t.resolve old with
  | error e => rw [resolved] at h; cases h
  | ok source =>
    rw [resolved] at h
    rw [← resolve_eq resolved]
    simp only [failed, bind, Except.bind] at h
    cases found : t.find? source with
    | none => rw [found] at h; cases h
    | some entry =>
      rw [found] at h
      cases target : t.resolve new with
      | error e => rw [target] at h; cases h
      | ok place =>
        rw [target] at h
        rw [← resolve_eq target]
        dsimp only at h
        split at h
        · cases h
        · next other =>
          simp only [Except.mapError, Except.ok.injEq] at h
          exact ⟨fun root => other (by rw [root]; rfl), entry, rfl, h.symm⟩

/-- **How replacing a file ends**: it fails at once, or with the new content
beside the file, or the new content is at its place. -/
theorem replace_cases (beside path content : Bytes) (t : FileTree) {r : Except FileError Unit × FileTree}
    (run : (FileAccess.replace beside path content : StateM FileTree (Except FileError Unit)) t = r) :
    (∃ e, r = (.error e, t)) ∨ (∃ e, r = (.error e, t.put (t.lexical beside) (.file content)))
      ∨ t.lexical path ≠ [] ∧ r = (.ok (), ((t.put (t.lexical beside) (.file content)).drop
          (t.lexical beside)).put (t.lexical path) (.file content)) := by
  have first : (FileAccess.write beside content : StateM FileTree (Except FileError Unit)) t
      = FileTree.change (·.write beside content) t := rfl
  rw [FileAccess.replace, bind_apply, first, change_apply] at run
  cases written : t.write beside content with
  | error e => rw [written] at run; exact .inl ⟨e, run.symm⟩
  | ok t' =>
    obtain ⟨rfl, nonempty⟩ := write_ok written
    rw [written] at run
    change FileTree.change (·.rename beside path) _ = r at run
    rw [change_apply] at run
    cases renamed : (t.put (t.lexical beside) (.file content)).rename beside path with
    | error e => rw [renamed] at run; exact .inr (.inl ⟨e, run.symm⟩)
    | ok t'' =>
      obtain ⟨root, entry, found, rfl⟩ := rename_ok renamed
      have there (path : Bytes) : (t.put (t.lexical beside) (.file content)).lexical path
          = t.lexical path := lexical_congr rfl
      rw [there, find?_put_self nonempty] at found
      cases found
      rw [there, there] at renamed
      rw [renamed] at run
      exact .inr (.inr ⟨there path ▸ root, run.symm⟩)

/-- **Replacing a file brings its new content only.** -/
theorem replace_brings (beside path content : Bytes) :
    Brings (FileAccess.replace beside path content) (· = content) := by
  intro t
  have new {t : FileTree} {place : TreePlace} : Gains (· = content) t (t.put place (.file content)) :=
    .put fun _ same => (FileEntry.file.inj same).symm
  rcases replace_cases beside path content t rfl with ⟨e, ends⟩ | ⟨e, ends⟩ | ⟨-, ends⟩ <;> rw [ends]
  · exact .refl t
  · exact new
  · exact (new.trans (.drop _ _)).trans new

/-! ## What is spared -/

/-- **The tree `t'` has the files that `t` has** at the places that are kept. -/
structure Spares (kept : TreePlace → Prop) (t t' : FileTree) : Prop where
  current : t'.current = t.current
  files : ∀ p content, kept p → t.find? p = some (.file content) → t'.find? p = some (.file content)

namespace Spares

variable {kept : TreePlace → Prop}

theorem refl (t : FileTree) : Spares kept t t := ⟨rfl, fun _ _ _ h => h⟩

theorem trans (first : Spares kept t t') (second : Spares kept t' t'') : Spares kept t t'' :=
  ⟨second.current.trans first.current,
    fun p content here h => second.files p content here (first.files p content here h)⟩

theorem mono {kept' : TreePlace → Prop} (h : Spares kept t t') (imp : ∀ p, kept' p → kept p) :
    Spares kept' t t' :=
  ⟨h.current, fun p content here => h.files p content (imp p here)⟩

theorem put (other : ∀ content, kept place → t.find? place ≠ some (.file content)) :
    Spares kept t (t.put place entry) where
  current := rfl
  files p content here h := by
    have apart : p ≠ place := by
      rintro rfl
      exact other content here h
    rw [find?_put_of_ne apart, h]

theorem drop (apart : ∀ p, kept p → ¬ place <+: p) : Spares kept t (t.drop place) :=
  ⟨rfl, fun p _ here h => (find?_drop_of_apart (apart p here)).trans h⟩

theorem makeFolders (path : Bytes) (t : FileTree) : Spares kept t
    ((FileAccess.makeFolders path : StateM FileTree (Except FileError Unit)) t).2 :=
  makeFolders_steps .refl .trans (fun t _ none => .put fun _ _ h => by rw [none] at h; cases h) path t

/-- **Replacing a file** spares every place that is not its own or below that
of the file beside it. -/
theorem replace (beside path content : Bytes)
    (apart : ∀ p, kept p → p ≠ t.lexical path ∧ ¬ t.lexical beside <+: p) : Spares kept t
      ((FileAccess.replace beside path content : StateM FileTree (Except FileError Unit)) t).2 := by
  have written : Spares kept t (t.put (t.lexical beside) (.file content)) :=
    .put fun _ here => absurd (prefix_refl _) (apart _ here).2
  rcases replace_cases beside path content t rfl with ⟨e, ends⟩ | ⟨e, ends⟩ | ⟨-, ends⟩ <;> rw [ends]
  · exact .refl t
  · exact written
  · exact (written.trans (.drop fun p here => (apart p here).2)).trans
      (.put fun _ here => absurd rfl (apart _ here).1)

end Spares

end FileTree

end TemplateCompiler
