import TemplateCompiler.Proofs.Script.Literals
import TemplateCompiler.Proofs.Script.Marks

/-!
# Interpolations, read back

The characters of a run are read with the same machine as those of a string
(`Script.bareRun`). They stand for the text that was escaped, but for its line
ends: a carriage return, with the line feed behind it if there is one, is read
as a line feed (`Script.lineFeeds`). So a run survives exactly if no carriage
return is in it. A printed interpolation falls into its runs and holes again,
whatever a run ends or begins with (`Script.escapeRun_readBack`).
-/

open List

namespace TemplateCompiler.Script

variable {s : Bytes} {cs rest : List Nat} {p : Place}

/-! ## Runs -/

/-- A code point of a run that no escape takes: no backquote, and no dollar sign
with a brace behind it. -/
def bareRun (c : Nat) : Move :=
  if c = 0x5c then some (.escape, [])
  else if c = 0x60 then none
  else if c = 0x24 then some (.dollar, [c])
  else if c = 0x0d then some (.returned, [0x0a])
  else some (.between, [c])

/-- Text with line feeds for its line ends. `after` says whether a carriage
return stands in front of it. -/
def lineFeeds (after : Bool) : List Nat → List Nat
  | [] => []
  | c :: cs =>
    if c = 0x0d then 0x0a :: lineFeeds true cs
    else if after && c == 0x0a then lineFeeds false cs
    else c :: lineFeeds false cs

theorem lineFeeds_eq_iff : lineFeeds false cs = cs ↔ 0x0d ∉ cs := by
  induction cs with
  | nil => simp [lineFeeds]
  | cons c cs ih =>
    rw [lineFeeds]
    grind

/-- The escapes of a run, by code points. -/
def escapeCodes : List Nat → List Nat
  | [] => []
  | c :: cs =>
    (if c = 0x5c ∨ c = 0x60 ∨ c = 0x24 ∧ cs.head? = some 0x7b then [0x5c, c] else [c])
      ++ escapeCodes cs

theorem escapeRun_cons (b : UInt8) (bs : Bytes) : escapeRun (b :: bs)
    = (if b = Byte.backslash ∨ b = Byte.backquote
        ∨ b = Byte.dollar ∧ bs.head? = some Byte.openBrace then [Byte.backslash, b] else [b])
      ++ escapeRun bs := by
  by_cases backslash : b = Byte.backslash
  · subst backslash
    rfl
  by_cases backquote : b = Byte.backquote
  · subst backquote
    rfl
  by_cases hole : b = Byte.dollar ∧ bs.head? = some Byte.openBrace
  · obtain ⟨rfl, next⟩ := hole
    obtain ⟨bs, rfl⟩ := head?_eq_some_iff.1 next
    rfl
  · rw [if_neg (by simp [backslash, backquote, hole]), escapeRun.eq_5 _ _ backslash backquote]
    · rfl
    · rintro rest rfl rfl
      exact hole ⟨rfl, rfl⟩

theorem escapeRun_high {bs : Bytes} (high : ∀ b ∈ bs, ¬b < 0x80) (cs : Bytes) :
    escapeRun (bs ++ cs) = bs ++ escapeRun cs := by
  induction bs with
  | nil => rfl
  | cons b bs ih =>
    obtain ⟨first, rest⟩ := forall_mem_cons.1 high
    rw [cons_append, escapeRun_cons, if_neg, ih rest]
    · rfl
    · rintro (rfl | rfl | ⟨rfl, -⟩) <;> exact first (by decide)

theorem points_escapeRun (valid : Utf8.isValid s = true) :
    Utf8.points (escapeRun s) = escapeCodes (Utf8.points s) := by
  rw [Utf8.isValid] at valid
  fun_induction Utf8.runes s with
  | case1 => simp [escapeRun, Utf8.points, Utf8.runes, escapeCodes]
  | case3 => exact absurd valid (by simp)
  | case2 b rest code more found ih =>
    rw [all_cons, Bool.and_eq_true] at valid
    by_cases low : b < 0x80
    · have read : Utf8.point? (b :: rest) = some (b.toNat, 0) := by
        rw [Utf8.point?.eq_def]; exact if_pos low
      cases read.symm.trans found
      have tail := ih valid.2
      rw [drop_zero] at tail
      have same (c : UInt8) : b.toNat = c.toNat ↔ b = c := UInt8.toNat_inj
      rw [Utf8.points_ascii_cons low, escapeCodes, escapeRun_cons, ← tail]
      have escapes : (b.toNat = 0x5c ∨ b.toNat = 0x60
          ∨ b.toNat = 0x24 ∧ (Utf8.points rest).head? = some 0x7b)
          ↔ (b = Byte.backslash ∨ b = Byte.backquote
            ∨ b = Byte.dollar ∧ rest.head? = some Byte.openBrace) := by
        rw [← same, ← same, ← same, ← Utf8.head?_points (c := Byte.openBrace) (by decide)]
        rfl
      simp only [escapes]
      split
      · rw [cons_append, singleton_append, Utf8.points_ascii_cons (by decide),
          Utf8.points_ascii_cons low]
        rfl
      · rw [singleton_append, Utf8.points_ascii_cons low]
        rfl
    · obtain ⟨high, bytes⟩ := Utf8.high_of_point? found low
      have split : b :: rest = (b :: rest.take more) ++ rest.drop more := by simp
      have through : Utf8.points (b :: rest) = code :: Utf8.points (rest.drop more) := by
        rw [Utf8.points, Utf8.runes, found]
        rfl
      have mem : code ∈ Utf8.points (b :: rest) := through ▸ mem_cons_self
      rw [through, escapeCodes, if_neg (by omega), split, escapeRun_high bytes, ← ih valid.2,
        ← Utf8.encode_of_point? found, Utf8.points, Utf8.runes_encode mem]
      rfl

/-- The places between two characters of a run, in front of `cs`. -/
def Place.Open (cs : List Nat) (p : Place) : Prop :=
  p = .between ∨ p = .returned ∨ p = .dollar ∧ cs.head? ≠ some 0x7b

/-- **The characters of a run** are read back, up to their line ends. -/
theorem walk_escapeCodes (cs : List Nat) (between : p.Open cs) :
    ∃ q : Place, q.isComplete = true
      ∧ walk bareRun p (escapeCodes cs) = some (q, lineFeeds (p == .returned) cs) := by
  induction cs generalizing p with
  | nil =>
    refine ⟨p, ?_, rfl⟩
    rcases between with rfl | rfl | ⟨rfl, -⟩ <;> rfl
  | cons c cs ih =>
    have step : ∃ (q : Place) (gained : List Nat), q.Open cs
        ∧ walk bareRun p (if c = 0x5c ∨ c = 0x60 ∨ c = 0x24 ∧ cs.head? = some 0x7b
          then [0x5c, c] else [c]) = some (q, gained)
        ∧ lineFeeds (p == .returned) (c :: cs) = gained ++ lineFeeds (q == .returned) cs := by
      split
      · next special =>
        refine ⟨.between, [c], .inl rfl, ?_, ?_⟩
        all_goals
          rcases special with rfl | rfl | ⟨rfl, -⟩ <;> rcases between with rfl | rfl | ⟨rfl, -⟩ <;> rfl
      · next plain =>
        by_cases feed : p = .returned ∧ c = 0x0a
        · obtain ⟨rfl, rfl⟩ := feed
          exact ⟨.between, [], .inl rfl, rfl, rfl⟩
        · have moved : move bareRun c p = bareRun c := by
            rcases between with rfl | rfl | ⟨rfl, brace⟩
            · rfl
            · exact if_neg fun same => feed ⟨rfl, same⟩
            · exact if_neg fun same => brace (by rw [same]; rfl)
          rw [walk, moved]
          by_cases dollar : c = 0x24
          · subst dollar
            refine ⟨.dollar, [0x24], .inr (.inr ⟨rfl, ?_⟩), rfl, ?_⟩
            · exact fun brace => plain (.inr (.inr ⟨rfl, brace⟩))
            · rw [lineFeeds, if_neg (by decide), if_neg (by simp)]
              rfl
          by_cases back : c = 0x0d
          · subst back
            exact ⟨.returned, [0x0a], .inr (.inl rfl), rfl, rfl⟩
          · refine ⟨.between, [c], .inl rfl, ?_, ?_⟩
            · grind [bareRun, walk]
            · grind [lineFeeds]
    obtain ⟨q, gained, next, here, same⟩ := step
    obtain ⟨r, complete, rest⟩ := ih next
    refine ⟨r, complete, ?_⟩
    rw [escapeCodes, walk_append here, rest, same]
    rfl

/-! ## Runs and holes -/

/-- Whether a run ends there: with a backquote or with a hole. -/
def isDelimiter : List Nat → Bool
  | 0x60 :: _ | 0x24 :: 0x7b :: _ => true
  | _ => false

/-- The text of a run up to its end, and what follows from there. -/
def run? (p : Place) : List Nat → Option (List Nat × List Nat)
  | [] => none
  | c :: cs =>
    if p.isComplete && isDelimiter (c :: cs) then some ([], c :: cs)
    else (move bareRun c p).bind fun m => (run? m.1 cs).map fun r => (m.2 ++ r.1, r.2)

/-- **The runs and the holes of an interpolation**, and what follows the
backquote that ends it. `hole` reads an expression up to the brace behind it. -/
def template? (hole : List Nat → Option (List Nat × List Nat)) (cs : List Nat) :
    Option (List (List Nat) × List (List Nat) × List Nat) :=
  match run? .between cs with
  | some (run, 0x60 :: rest) => some ([run], [], rest)
  | some (run, 0x24 :: 0x7b :: inner) =>
    match hole inner with
    | some (expression, 0x7d :: rest) =>
      if rest.length < cs.length then
        (template? hole rest).map fun t => (run :: t.1, expression :: t.2.1, t.2.2)
      else none
    | _ => none
  | _ => none
termination_by cs.length

theorem move_delimiter (done : p.isComplete = true) :
    move bareRun 0x60 p = none ∧ move bareRun 0x24 p = some (.dollar, [0x24]) := by
  cases p with
  | between | dollar | returned | null => exact ⟨rfl, rfl⟩
  | _ => cases done

/-- Characters of a run do not look like its end. -/
theorem isDelimiter_eq_false {c : Nat} (done : p.isComplete = true)
    (read : (walk bareRun p (c :: cs)).isSome = true) (delimiter : isDelimiter rest = true) :
    isDelimiter (c :: (cs ++ rest)) = false := by
  obtain ⟨backquote, dollar⟩ := move_delimiter done
  by_contra ends
  unfold isDelimiter at ends
  split at ends
  · next same =>
    cases same
    rw [walk, backquote] at read
    cases read
  · next both =>
    obtain ⟨rfl, next⟩ := List.cons.inj both
    rw [walk, dollar] at read
    cases cs with
    | nil => rw [← nil_append rest, next] at delimiter; cases delimiter
    | cons d cs => cases next; cases read
  · exact ends rfl

theorem run?_of_walk {q : Place} {gained : List Nat} (read : walk bareRun p cs = some (q, gained))
    (complete : q.isComplete = true) (delimiter : isDelimiter rest = true) :
    run? p (cs ++ rest) = some (gained, rest) := by
  induction cs generalizing p gained with
  | nil =>
    obtain ⟨rfl, rfl⟩ := Prod.mk.inj (Option.some.inj read)
    cases rest with
    | nil => cases delimiter
    | cons c rest => rw [nil_append, run?, complete, delimiter]; rfl
  | cons c cs ih =>
    obtain ⟨⟨r, one⟩, moved, rest'⟩ := Option.bind_eq_some_iff.1 read
    obtain ⟨⟨q', more⟩, walked, same⟩ := Option.map_eq_some_iff.1 rest'
    obtain ⟨rfl, rfl⟩ := Prod.mk.inj same
    have open_ : (p.isComplete && isDelimiter (c :: (cs ++ rest))) = false := by
      rw [Bool.and_eq_false_imp]
      exact fun done => isDelimiter_eq_false done (by rw [read]; rfl) delimiter
    rw [cons_append, run?, open_, moved, Option.bind_some, ih walked]
    rfl

theorem run?_escapeRun (valid : Utf8.isValid s = true) (delimiter : isDelimiter rest = true) :
    run? .between (Utf8.points (escapeRun s) ++ rest)
      = some (lineFeeds false (Utf8.points s), rest) := by
  obtain ⟨q, complete, read⟩ := walk_escapeCodes (Utf8.points s) (p := .between) (.inl rfl)
  rw [points_escapeRun valid]
  exact run?_of_walk read complete delimiter

/-- **The runs and holes of a printed interpolation** are read back. -/
theorem template?_interleave {hole : List Nat → Option (List Nat × List Nat)} {ds : List Doc}
    (reads : ∀ d ∈ ds, ∀ rest, hole (Utf8.points d.text ++ 0x7d :: rest)
      = some (Utf8.points d.text, 0x7d :: rest))
    {runs : List Bytes} (count : runs.length = ds.length + 1)
    (valid : ∀ run ∈ runs, Utf8.isValid run = true) (after : Bytes) :
    template? hole (Utf8.points ((Code.interleave runs ds).text ++ Byte.backquote :: after))
      = some (runs.map fun run => lineFeeds false (Utf8.points run),
        ds.map fun d => Utf8.points d.text, Utf8.points after) := by
  induction ds generalizing runs with
  | nil =>
    obtain ⟨run, rfl⟩ := length_eq_one_iff.1 count
    have text : (Code.interleave [run] []).text = escapeRun run := by simp [Code.interleave]
    rw [text, Utf8.points_append_ascii (by decide), template?,
      run?_escapeRun (valid run mem_cons_self) rfl]
    rfl
  | cons d ds ih =>
    cases runs with
    | nil => cases count
    | cons run runs =>
      obtain ⟨first, others⟩ := forall_mem_cons.1 valid
      obtain ⟨here, below⟩ := forall_mem_cons.1 reads
      have rest := ih below (Nat.succ.inj count) others
      generalize tail : (Code.interleave runs ds).text ++ Byte.backquote :: after = more at rest
      have text : (Code.interleave (run :: runs) (d :: ds)).text ++ Byte.backquote :: after
          = escapeRun run ++ Byte.dollar :: Byte.openBrace :: (d.text ++ Byte.closeBrace :: more) := by
        rw [← tail]
        simp only [Code.interleave, Doc.text_append, Doc.text_ofText, append_assoc]
        rfl
      rw [text, Utf8.points_append_ascii (by decide), Utf8.points_ascii_cons (by decide),
        Utf8.points_append_ascii (by decide), template?, run?_escapeRun first rfl]
      have shorter : (Utf8.points more).length < (Utf8.points (escapeRun run) ++ 0x24 :: 0x7b ::
          (Utf8.points d.text ++ 0x7d :: Utf8.points more)).length := by simp; omega
      have bytes : Byte.dollar.toNat = 0x24 ∧ Byte.openBrace.toNat = 0x7b
          ∧ Byte.closeBrace.toNat = 0x7d := ⟨rfl, rfl, rfl⟩
      simp only [bytes, here, if_pos shorter, rest]
      rfl

theorem value?_escapeRun (valid : Utf8.isValid s = true) :
    value? bareRun (Utf8.points (escapeRun s)) = some (lineFeeds false (Utf8.points s)) := by
  obtain ⟨q, complete, read⟩ := walk_escapeCodes (Utf8.points s) (p := .between) (.inl rfl)
  rw [points_escapeRun valid, value?, read, Option.bind_some, if_pos complete]
  rfl

/-- **Interpolations survive printing, up to their line ends.** The characters
of a run are read to their end, as the text that was escaped with line feeds for
its line ends; that is the text itself exactly if there is no carriage return in
it. The text of an interpolation is its tag and, between backquotes, what is read
as its runs and the texts of its holes, by any reader of expressions that stops
at the brace behind each hole. -/
theorem escapeRun_readBack (s : Bytes) (loc : Option Location) (tag : Bytes) (runs : List Bytes)
    (holes : List Code) (least : Precedence) (d : Doc) :
    (Utf8.isValid s = true →
      value? bareRun (Utf8.points (escapeRun s)) = some (lineFeeds false (Utf8.points s))
      ∧ (value? bareRun (Utf8.points (escapeRun s)) = some (Utf8.points s) ↔ 0x0d ∉ Utf8.points s)
      ∧ Utf8.ofPoints (Utf8.points s) = s)
    ∧ (least ≤ Precedence.call → (∀ run ∈ runs, Utf8.isValid run = true) →
      (Code.interpolation loc tag runs holes).doc least = .ok d →
      ∃ ds body, List.Forall₂ (fun hole d => hole.doc .sequence = .ok d) holes ds
        ∧ d.text = tag ++ Byte.backquote :: body
        ∧ ∀ hole, (∀ d ∈ ds, ∀ rest, hole (Utf8.points d.text ++ 0x7d :: rest)
            = some (Utf8.points d.text, 0x7d :: rest)) →
          template? hole (Utf8.points body)
            = some (runs.map fun run => lineFeeds false (Utf8.points run),
              ds.map fun d => Utf8.points d.text, [])) := by
  refine ⟨fun valid => ⟨value?_escapeRun valid, ?_, Utf8.ofPoints_points valid⟩, ?_⟩
  · rw [value?_escapeRun valid, Option.some_inj]
    exact lineFeeds_eq_iff
  · intro level valid printed
    obtain ⟨sound, ds, each, rfl⟩ := Code.doc_ok_iff.1 printed
    have count : runs.length = holes.length + 1 := by simpa [Code.sound] using sound
    have printed : List.Forall₂ (fun hole d => hole.doc .sequence = .ok d) holes ds :=
      List.forall₂_map_left_iff.1 each
    refine ⟨ds, (Code.interleave runs ds).text ++ [Byte.backquote], printed, ?_, fun hole reads => ?_⟩
    · have bare : ¬(Code.interpolation loc tag runs holes).precedence < least := Nat.not_lt.2 level
      rw [Code.enclosed, if_neg bare]
      simp [Code.shape]
    · rw [template?_interleave reads (by rw [count, printed.length_eq]) valid]
      simp [Utf8.points, Utf8.runes]

/-- A carriage return is lost. -/
theorem carriageReturn_lost :
    value? bareRun (Utf8.points (escapeRun [0x61, 0x0d, 0x0a])) = some [0x61, 0x0a] := by
  have ascii : ∀ b ∈ ([0x61, 0x0d, 0x0a] : Bytes), b < 0x80 := by decide
  rw [show escapeRun [0x61, 0x0d, 0x0a] = [0x61, 0x0d, 0x0a] from rfl, Utf8.points_of_ascii ascii]
  rfl

end TemplateCompiler.Script
