import TemplateCompiler.Build.Basic
import TemplateCompiler.Proofs.Cache.Packing

/-!
# What a cache key covers

A key is the digest of a byte sequence. That sequence can be read in one way
only: from it the source comes back, the partials in the order of their names,
and each of the settings that are packed into it. So where the digest does not
collide, builds with one key have all of this in common (`Build.key_inj`).
-/

open List

namespace TemplateCompiler

namespace Bytes

theorem hexValue?_hexDigit : ∀ n : Fin 16, Byte.hexValue? (Byte.hexDigit n) = some n.val := by
  decide

/-- **Hexadecimal digits are read back.** -/
theorem ofHex?_toHex (bs : Bytes) : ofHex? (toHex bs) = some bs := by
  induction bs with
  | nil => rfl
  | cons b bs ih =>
    have high := hexValue?_hexDigit ⟨b.toNat / 16 ^ 1 % 16, Nat.mod_lt _ (by decide)⟩
    have low := hexValue?_hexDigit ⟨b.toNat / 16 ^ 0 % 16, Nat.mod_lt _ (by decide)⟩
    have value : 16 * (b.toNat / 16 ^ 1 % 16) + b.toNat / 16 ^ 0 % 16 = b.toNat := by
      have := b.toNat_lt
      omega
    change ofHex? (Byte.hexDigit _ :: Byte.hexDigit _ :: toHex bs) = _
    rw [ofHex?, high, low, ih]
    simp only [bind, Option.bind, pure, value, UInt8.ofNat_toNat]

theorem length_toHex (bs : Bytes) : (toHex bs).length = 2 * bs.length := by
  induction bs with
  | nil => rfl
  | cons b bs ih =>
    change (toHex bs).length + 2 = 2 * (bs.length + 1)
    rw [ih]
    rfl

theorem toHex_injective {bs cs : Bytes} (same : toHex bs = toHex cs) : bs = cs := by
  rw [← Option.some.injEq, ← ofHex?_toHex bs, same, ofHex?_toHex]

/-- Texts are in the order of their bytes. -/
theorem le_iff (a b : Bytes) : le a b = true ↔ a ≤ b := by
  induction a generalizing b with
  | nil => exact iff_of_true rfl (nil_le b)
  | cons x a ih =>
    cases b with
    | nil => exact iff_of_false Bool.false_ne_true (by simp)
    | cons y b => simp [le, ih, cons_le_cons_iff]

theorem le_trans {a b c : Bytes} (ab : le a b = true) (bc : le b c = true) : le a c = true :=
  (le_iff a c).2 (List.le_trans ((le_iff a b).1 ab) ((le_iff b c).1 bc))

theorem le_total (a b : Bytes) : (le a b || le b a) = true := by
  simpa [le_iff] using List.le_total a b

end Bytes

namespace CacheKey

variable {bs : Bytes} {p : Bytes × Bytes} {lib lib' : Library}

open Unpack

/-! ## Source and partials -/

/-- **A text whose length has seven bytes at most**, so that the length is
written behind a zero. -/
def Short (bs : Bytes) : Prop := bs.length < 2 ^ 56

theorem field_reads (short : Short bs) : Reads (nat 8 >>= take) (field bs) bs :=
  (nat_reads (Nat.lt_trans short (by decide))).bind (take_reads bs)

theorem head_field (short : Short bs) : (field bs).head? = some 0 := by
  have zero : bs.length / 256 ^ 7 = 0 := Nat.div_eq_of_lt short
  rw [field, Bytes.bigEndian_succ, zero]
  rfl

/-- Texts that fit the packed form are short. -/
theorem short_of_limit (fits : bs.length < limit) : Short bs :=
  Nat.lt_trans fits (by decide)

/-- **Partials that fit.** -/
def Fits (partials : List (Bytes × Bytes)) : Prop :=
  ∀ p ∈ partials, p.1.length < limit ∧ p.2.length < limit

/-- **Partials with short names and sources.** -/
def AllShort (partials : List (Bytes × Bytes)) : Prop := ∀ p ∈ partials, Short p.1 ∧ Short p.2

theorem Fits.allShort {partials : List (Bytes × Bytes)} (fits : Fits partials) :
    AllShort partials :=
  fun p h => (fits p h).imp short_of_limit short_of_limit

/-- A partial in the digested sequence. -/
def pair (p : Bytes × Bytes) : Bytes := field p.1 ++ field p.2

theorem pair_reads (name : Short p.1) (source : Short p.2) :
    Reads (do let n ← nat 8 >>= take; let s ← nat 8 >>= take; pure (n, s)) (pair p) p :=
  (field_reads name).bind (field_reads source).give

theorem head_pair (name : Short p.1) (rest : Bytes) :
    (pair p ++ rest).head? = some 0 := by
  rw [pair, append_assoc, head?_append, head_field name]
  rfl

/-- **The partials end where the settings start**, as the code of a map is not
zero. -/
theorem partials_inj {ps ps' : List (Bytes × Bytes)} {rest rest' : Bytes} (fits : AllShort ps)
    (fits' : AllShort ps') (start : rest.head? ≠ some 0) (start' : rest'.head? ≠ some 0)
    (same : ps.flatMap pair ++ rest = ps'.flatMap pair ++ rest') : ps = ps' ∧ rest = rest' := by
  induction ps generalizing ps' with
  | nil =>
    cases ps' with
    | nil => exact ⟨rfl, same⟩
    | cons p' ps' =>
      have short := (fits' p' mem_cons_self).1
      rw [flatMap_nil, nil_append, flatMap_cons, append_assoc] at same
      exact absurd (same ▸ head_pair short _) start
  | cons p ps ih =>
    have short := fits p mem_cons_self
    rw [flatMap_cons, append_assoc] at same
    cases ps' with
    | nil =>
      rw [flatMap_nil, nil_append] at same
      exact absurd (same ▸ head_pair short.1 _) start'
    | cons p' ps' =>
      have short' := fits' p' mem_cons_self
      rw [flatMap_cons, append_assoc] at same
      obtain ⟨rfl, rest⟩ := (pair_reads short.1 short.2).inj (pair_reads short'.1 short'.2) same
      obtain ⟨rfl, end'⟩ := ih (fun q h => fits q (mem_cons_of_mem _ h))
        (fun q h => fits' q (mem_cons_of_mem _ h)) rest
      exact ⟨rfl, end'⟩

theorem short_sorted (fits : AllShort lib.partials) :
    AllShort (sortedPartials lib) :=
  fun p h => fits p (mem_mergeSort.1 h)

theorem lookup_eq_filter (partials : List (Bytes × Bytes)) (name : Bytes) :
    partials.lookup name = ((partials.filter fun p => p.1 == name).head?).map Prod.snd := by
  induction partials with
  | nil => rfl
  | cons p partials ih =>
    obtain ⟨key, source⟩ := p
    by_cases here : name = key
    · simp [here]
    · simp [lookup_cons, beq_eq_false_iff_ne.mpr here,
        beq_eq_false_iff_ne.mpr (Ne.symm here), ih]

/-- Sorting by name keeps partials of one name in their order. -/
theorem source?_sorted (lib : Library) (name : Bytes) :
    lib.source? name = (sortedPartials lib).lookup name := by
  have trans (a b c : Bytes × Bytes) : Bytes.le a.1 b.1 → Bytes.le b.1 c.1 → Bytes.le a.1 c.1 :=
    Bytes.le_trans
  have total (a b : Bytes × Bytes) : (Bytes.le a.1 b.1 || Bytes.le b.1 a.1) = true :=
    Bytes.le_total a.1 b.1
  have level : (lib.partials.filter fun p => p.1 == name).Pairwise fun a b => Bytes.le a.1 b.1 := by
    refine List.Pairwise.imp_of_mem (fun {a b} ha hb _ => ?_) (pairwise_of_forall fun _ _ => trivial)
    have first := beq_iff_eq.1 (mem_filter.1 ha).2
    have second := beq_iff_eq.1 (mem_filter.1 hb).2
    rw [first, second]
    simpa using Bytes.le_total name name
  have kept : (lib.partials.filter fun p => p.1 == name).Sublist (sortedPartials lib) :=
    sublist_mergeSort trans total level filter_sublist
  have inside := kept.filter fun p => p.1 == name
  rw [filter_filter] at inside
  simp only [Bool.and_self] at inside
  have same := inside.eq_of_length
    ((mergeSort_perm lib.partials _).filter _).length_eq.symm
  rw [Library.source?, lookup_eq_filter, lookup_eq_filter, same]

/-- **Source, partials and settings are read from the digested sequence in one
way only.** -/
theorem input_inj {source source' : Bytes} {settings settings' : Packed} (short : Short source)
    (short' : Short source') (fits : AllShort lib.partials) (fits' : AllShort lib'.partials)
    (start : settings.encode.head? ≠ some 0) (start' : settings'.encode.head? ≠ some 0)
    (same : input source lib settings = input source' lib' settings') :
    source = source' ∧ sortedPartials lib = sortedPartials lib'
      ∧ settings.encode = settings'.encode := by
  unfold input at same
  rw [append_assoc, append_assoc] at same
  obtain ⟨sources, rest⟩ := (field_reads short).inj (field_reads short') same
  exact ⟨sources, partials_inj (short_sorted fits) (short_sorted fits') start start' rest⟩

/-- **Partials that are the same in the order of their names** have the same
sources: sorting keeps what has one name in its order. -/
theorem source?_eq (same : sortedPartials lib = sortedPartials lib') (name : Bytes) :
    lib.source? name = lib'.source? name := by
  rw [source?_sorted lib, source?_sorted lib', same]

end CacheKey

namespace Settings

/-! ## Settings -/

/-- The order of the keys. -/
theorem sortEntries_keys (a b c d e f g h i j : Bytes) :
    Packed.sortEntries [("module", a), ("split", b), ("export", c), ("reserved", d), ("root", e),
        ("naming", f), ("maps", g), ("assign", h), ("emit", i), ("file", j)]
      = ([("assign", h), ("emit", i), ("export", c), ("file", j), ("maps", g), ("module", a),
        ("naming", f), ("reserved", d), ("root", e), ("split", b)] : List (Bytes × Bytes)) := by
  cbv

/-- A packed value under a key. -/
def item (key : Bytes) (value : Packed) : Bytes := Packed.encodeText key ++ value.encode

/-- The packed settings, in the order of their keys. -/
theorem encode_packed (s : Settings) (script emit file : Bytes) :
    (s.packed script [("emit", .text emit), ("file", .text file)]).encode
      = 0x8a :: (item "assign" (.bool s.assignAsSet) ++ (item "emit" (.text emit)
        ++ (item "export" (.bool s.exported) ++ (item "file" (.text file)
        ++ (item "maps" (.bool s.sourceMaps) ++ (item "module" (.bool s.moduleMode)
        ++ (item "naming" (.text script) ++ (item "reserved" (Packed.texts? s.reserved)
        ++ (item "root" (.text s.rootName) ++ (item "split" (.bool s.splitModules)
        ++ [])))))))))) := by
  have sorted := sortEntries_keys (Packed.bool s.moduleMode).encode
    (Packed.bool s.splitModules).encode (Packed.bool s.exported).encode
    (Packed.texts? s.reserved).encode (Packed.text s.rootName).encode (Packed.text script).encode
    (Packed.bool s.sourceMaps).encode (Packed.bool s.assignAsSet).encode (Packed.text emit).encode
    (Packed.text file).encode
  exact congrArg (fun entries => 0x8a :: Packed.joinEntries entries) sorted

theorem bool_reads (b : Bool) : Unpack.Reads ((· == 0xc3) <$> Unpack.code) (Packed.bool b).encode b := by
  cases b with
  | false => exact fun _ => rfl
  | true => exact fun _ => rfl

theorem item_inj {α : Type} {reader : Unpack α} {key rest rest' : Bytes} {v v' : Packed} {a a' : α}
    (read : Unpack.Reads reader v.encode a) (read' : Unpack.Reads reader v'.encode a')
    (same : item key v ++ rest = item key v' ++ rest') : a = a' ∧ rest = rest' := by
  unfold item at same
  rw [append_assoc, append_assoc] at same
  exact read.inj read' (append_cancel_left same)

/-- **Settings that fit the packed form**, with the text of the naming script. -/
structure Fits (s : Settings) (script : Bytes) : Prop where
  reserved : ∀ l ∈ s.reserved, Packed.Fits l
  rootName : s.rootName.length < Unpack.limit
  script : script.length < Unpack.limit

/-- **Settings under which the same code is generated**: all that code depends
on besides source, partials and naming. -/
structure Alike (s s' : Settings) : Prop where
  assignAsSet : s.assignAsSet = s'.assignAsSet
  exported : s.exported = s'.exported
  sourceMaps : s.sourceMaps = s'.sourceMaps
  moduleMode : s.moduleMode = s'.moduleMode
  reserved : s.reserved = s'.reserved
  rootName : s.rootName = s'.rootName
  splitModules : s.splitModules = s'.splitModules

/-- **Every packed setting is read back** from the packed form. -/
theorem packed_inj {s s' : Settings} {script script' emit emit' file file' : Bytes}
    (fits : s.Fits script) (fits' : s'.Fits script') (emitFits : emit.length < Unpack.limit)
    (emitFits' : emit'.length < Unpack.limit) (fileFits : file.length < Unpack.limit)
    (fileFits' : file'.length < Unpack.limit)
    (same : (s.packed script [("emit", .text emit), ("file", .text file)]).encode
      = (s'.packed script' [("emit", .text emit'), ("file", .text file')]).encode) :
    s.Alike s' ∧ script = script' ∧ emit = emit' ∧ file = file' := by
  rw [encode_packed, encode_packed] at same
  obtain ⟨assign, same⟩ := item_inj (bool_reads _) (bool_reads _) (tail_eq_of_cons_eq same)
  obtain ⟨emits, same⟩ :=
    item_inj (Unpack.text_reads emitFits) (Unpack.text_reads emitFits') same
  obtain ⟨exported, same⟩ := item_inj (bool_reads _) (bool_reads _) same
  obtain ⟨files, same⟩ :=
    item_inj (Unpack.text_reads fileFits) (Unpack.text_reads fileFits') same
  obtain ⟨maps, same⟩ := item_inj (bool_reads _) (bool_reads _) same
  obtain ⟨module, same⟩ := item_inj (bool_reads _) (bool_reads _) same
  obtain ⟨scripts, same⟩ :=
    item_inj (Unpack.text_reads fits.script) (Unpack.text_reads fits'.script) same
  obtain ⟨reserved, same⟩ :=
    item_inj (Packed.texts_reads fits.reserved) (Packed.texts_reads fits'.reserved) same
  obtain ⟨root, same⟩ :=
    item_inj (Unpack.text_reads fits.rootName) (Unpack.text_reads fits'.rootName) same
  obtain ⟨split, -⟩ := item_inj (bool_reads _) (bool_reads _) same
  exact ⟨⟨assign, exported, maps, module, reserved, root, split⟩, scripts, emits, files⟩

end Settings

end TemplateCompiler
