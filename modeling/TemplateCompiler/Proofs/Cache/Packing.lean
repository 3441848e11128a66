import TemplateCompiler.Cache.Entry
import Mathlib

/-!
# Packed values read back

A reader of a packed form gives back what was packed and leaves what stands
behind it (`Reads`), as long as nothing has more than four bytes for its
length. So packed forms do not run into each other (`Reads.inj`), and a cache
entry is what it was before it was packed (`CacheEntry.unpack_pack`).
-/

open List

namespace TemplateCompiler

variable {n : Nat} {length : UInt8 → Unpack (Option Nat)} {bs : Bytes} {e : CacheEntry}

namespace Bytes

/-! ## Numbers in bytes -/

theorem length_bigEndian (width n : Nat) : (bigEndian width n).length = width := by
  simp [bigEndian]

theorem bigEndian_succ (width n : Nat) :
    bigEndian (width + 1) n = UInt8.ofNat (n / 256 ^ width % 256) :: bigEndian width n := by
  rw [bigEndian, range_succ, reverse_append]
  rfl

theorem foldl_bigEndian (width n start : Nat) :
    (bigEndian width n).foldl (fun m b => 256 * m + b.toNat) start
      = 256 ^ width * start + n % 256 ^ width := by
  induction width generalizing start with
  | zero => simp [bigEndian, Nat.mod_one]
  | succ width ih =>
    have byte : (UInt8.ofNat (n / 256 ^ width % 256)).toNat = n / 256 ^ width % 256 := by simp
    rw [bigEndian_succ, foldl_cons, ih, byte, Nat.pow_succ, Nat.mod_mul]
    ring

/-- **A number that fits its bytes** is read back from them. -/
theorem ofBigEndian_bigEndian {width n : Nat} (fits : n < 256 ^ width) :
    ofBigEndian (bigEndian width n) = n := by
  rw [ofBigEndian, foldl_bigEndian, Nat.mul_zero, Nat.zero_add, Nat.mod_eq_of_lt fits]

end Bytes

namespace Unpack

variable {α β : Type}

/-! ## Readers -/

/-- **The reader reads `a` from these bytes**, whatever stands behind them. -/
def Reads (reader : Unpack α) (bs : Bytes) (a : α) : Prop :=
  ∀ rest, reader (bs ++ rest) = .ok (a, rest)

namespace Reads

variable {reader : Unpack α} {k : α → Unpack β} {front back bs bs' : Bytes} {a a' : α} {b : β}

theorem pure (a : α) : Reads (Pure.pure a) [] a := fun _ => rfl

theorem bind (first : Reads reader front a) (second : Reads (k a) back b) :
    Reads (reader >>= k) (front ++ back) b := by
  intro rest
  show (reader (front ++ back ++ rest) >>= fun p => k p.1 p.2) = _
  rw [append_assoc, first]
  exact second rest

/-- A step that reads nothing more. -/
theorem map {f : α → β} (h : Reads reader bs a) : Reads (f <$> reader) bs (f a) := by
  intro rest
  show (reader (bs ++ rest) >>= fun p => Except.ok (f p.1, p.2)) = _
  rw [h]
  rfl

theorem give {f : α → β} (h : Reads reader bs a) :
    Reads (reader >>= fun a => Pure.pure (f a)) bs (f a) := h.map

/-- **Forms that one reader reads do not run into each other.** -/
theorem inj {rest rest' : Bytes} (h : Reads reader bs a) (h' : Reads reader bs' a')
    (same : bs ++ rest = bs' ++ rest') : a = a' ∧ rest = rest' := by
  have both := (h rest).symm.trans (same ▸ h' rest')
  cases both
  exact ⟨rfl, rfl⟩

end Reads

theorem code_reads (c : UInt8) : Reads code [c] c := fun _ => rfl

theorem take_reads (bs : Bytes) : Reads (take bs.length) bs bs := by
  intro rest
  unfold take
  cases bs with
  | nil => rfl
  | cons b bs => simp

theorem nat_reads {width n : Nat} (fits : n < 256 ^ width) :
    Reads (nat width) (Bytes.bigEndian width n) n := by
  have taken := take_reads (Bytes.bigEndian width n)
  rw [Bytes.length_bigEndian] at taken
  have read := taken.map (f := Bytes.ofBigEndian)
  rw [Bytes.ofBigEndian_bigEndian fits] at read
  exact read

/-! ## Lengths -/

/-- The largest length, and one. -/
def limit : Nat := 2 ^ 32

theorem bytesLength_small (few : n < 32) :
    bytesLength (0xa0 + UInt8.ofNat n) = pure (some n) := by
  interval_cases n <;> rfl

theorem arrayLength_small (few : n < 16) :
    arrayLength (0x90 + UInt8.ofNat n) = pure (some n) := by
  interval_cases n <;> rfl

theorem mapLength_small (few : n < 16) :
    mapLength (0x80 + UInt8.ofNat n) = pure (some n) := by
  interval_cases n <;> rfl

/-- A length behind a code of its own. -/
theorem wide_reads {c : UInt8} {width n : Nat}
    (wide : length c = some <$> nat width) (fits : n < 256 ^ width) :
    Reads (code >>= length) (c :: Bytes.bigEndian width n) (some n) := by
  have after : Reads (length c) (Bytes.bigEndian width n) (some n) := wide ▸ (nat_reads fits).map
  exact (code_reads c).bind after

theorem small_reads {c : UInt8}
    (small : length c = pure (some n)) : Reads (code >>= length) [c] (some n) := by
  have after : Reads (length c) [] (some n) := small ▸ .pure _
  exact (code_reads c).bind after

/-- **A length is read from its head**, whichever of the codes it is behind. -/
theorem head_reads {small n : Nat} {fixed two four : UInt8}
    {byte? : Option UInt8} (inside : ∀ {m}, m < small → length (fixed + UInt8.ofNat m) = pure (some m))
    (one : ∀ c ∈ byte?, length c = some <$> nat 1) (wide : length two = some <$> nat 2)
    (wider : length four = some <$> nat 4) (fits : n < limit) :
    Reads (code >>= length) (Packed.head small fixed byte? two four n) (some n) := by
  unfold Packed.head
  split
  · next few => exact small_reads (inside few)
  · cases byte? with
    | none =>
      dsimp only
      split
      · next short => exact wide_reads wide short
      · exact wide_reads wider fits
    | some c =>
      dsimp only
      split
      · next short => exact wide_reads (one c rfl) short
      · split
        · next short => exact wide_reads wide short
        · exact wide_reads wider fits

theorem textHead_reads (fits : n < limit) :
    Reads (code >>= bytesLength) (Packed.head 32 0xa0 (some 0xd9) 0xda 0xdb n) (some n) :=
  head_reads bytesLength_small (by rintro c ⟨⟩; rfl) rfl rfl fits

theorem binaryHead_reads (fits : n < limit) :
    Reads (code >>= bytesLength) (Packed.head 0 0 (some 0xc4) 0xc5 0xc6 n) (some n) :=
  head_reads (fun few => absurd few (Nat.not_lt_zero _)) (by rintro c ⟨⟩; rfl) rfl rfl fits

theorem arrayHead_reads (fits : n < limit) :
    Reads (code >>= arrayLength) (Packed.arrayHead n) (some n) :=
  head_reads arrayLength_small (by simp) rfl rfl fits

theorem mapHead_reads (fits : n < limit) :
    Reads (code >>= mapLength) (Packed.mapHead n) (some n) :=
  head_reads mapLength_small (by simp) rfl rfl fits

/-! ## Texts and lists -/

theorem bytes_reads {head bs : Bytes} (length : Reads (code >>= bytesLength) head (some bs.length)) :
    Reads bytes? (head ++ bs) (some bs) := by
  have rest : Reads (some <$> take bs.length) bs (some bs) := (take_reads bs).map
  rw [bytes?, ← bind_assoc]
  exact length.bind rest

/-- **A text is read back.** -/
theorem text_reads (fits : bs.length < limit) :
    Reads text (Packed.encodeText bs) bs :=
  (bytes_reads (textHead_reads fits)).map (f := fun bs? : Option Bytes => bs?.getD [])

theorem binary_reads (fits : bs.length < limit) :
    Reads bytes? (Packed.encodeBinary bs) (some bs) :=
  bytes_reads (binaryHead_reads fits)

theorem word_reads (fits : n < 65536) :
    Reads word (Packed.encode (.short n)) n := by
  have value : (((n : Int) % 2 ^ 64).toNat) = n := by omega
  have read : Reads (do let n ← nat 2; pure ((n : Int) % 2 ^ 64).toNat) (Bytes.bigEndian 2 n) n := by
    have two : Reads (nat 2) (Bytes.bigEndian 2 n) n := nat_reads fits
    have whole := two.map (f := fun n : Nat => ((n : Int) % 2 ^ 64).toNat)
    rw [value] at whole
    exact whole
  exact (code_reads 0xcd).bind read

/-- Values one after the other. -/
theorem times_reads {reader : Unpack α} {pack : α → Bytes} {items : List α}
    (each : ∀ a ∈ items, Reads reader (pack a) a) :
    Reads (times reader items.length) (items.map pack).flatten items := by
  induction items with
  | nil => exact .pure _
  | cons a items ih =>
    have rest := ih fun a' h => each a' (mem_cons_of_mem _ h)
    exact (each a mem_cons_self).bind (rest.map (f := (a :: ·)))

/-- Values one after the other, where none stood before. -/
theorem refill_reads {reader : α → Unpack α} {blank : α} {pack : α → Bytes} {items : List α}
    (each : ∀ a ∈ items, Reads (reader blank) (pack a) a) :
    Reads (refill reader blank items.length []) (items.map pack).flatten items := by
  induction items with
  | nil => exact .pure _
  | cons a items ih =>
    have rest := ih fun a' h => each a' (mem_cons_of_mem _ h)
    exact (each a mem_cons_self).bind (rest.map (f := (a :: ·)))

theorem array_reads {reader : Unpack α} {pack : α → Bytes} {items : List α}
    (fits : items.length < limit) (each : ∀ a ∈ items, Reads reader (pack a) a) :
    Reads (array? reader) (Packed.arrayHead items.length ++ (items.map pack).flatten)
      (some items) := by
  have rest : Reads (some <$> times reader items.length) (items.map pack).flatten (some items) :=
    (times_reads each).map
  rw [array?, ← bind_assoc]
  exact (arrayHead_reads fits).bind rest

/-! ## Records -/

section Records

variable {read : Bytes → Option (α → Unpack α)} {keys : List Bytes} {blank start r r' : α}

theorem entry_reads {key bs : Bytes} {reader : α → Unpack α} (short : key.length < limit)
    (known : read key = some reader) (value : Reads (reader r) bs r') :
    Reads (entry read r) (Packed.encodeText key ++ bs) r' := by
  refine (text_reads short).bind ?_
  rw [known]
  exact value

theorem entries_reads {front back : Bytes} {r₁ : α} (first : Reads (entry read r) front r₁)
    (rest : Reads (entries read r₁ n) back r') :
    Reads (entries read r (n + 1)) (front ++ back) r' := first.bind rest

/-- **A record with few entries is read back** once its entries are. -/
theorem record_reads (few : n < 16) (inner : Reads (entries read start n) bs r) :
    Reads (record keys read blank start) (Packed.mapHead n ++ bs) r := by
  -- the code of a map is not one of the codes of arrays
  have noArray : ∀ n < 16, (decide ((0x90 : UInt8) ≤ 0x80 + UInt8.ofNat n)
      && decide (0x80 + UInt8.ofNat n ≤ 0x9f) || 0x80 + UInt8.ofNat n == 0xdc
      || 0x80 + UInt8.ofNat n == 0xdd) = false := by decide
  unfold Packed.mapHead Packed.head
  rw [if_pos few]
  refine (code_reads _).bind ?_
  rw [if_neg (by rw [noArray n few]; exact Bool.false_ne_true), mapLength_small few]
  exact inner

end Records

end Unpack

namespace Packed

theorem encodeItems_eq (items : List Packed) : encodeItems items = items.map encode := by
  induction items with
  | nil => rfl
  | cons item items ih => rw [encodeItems, ih]; rfl

theorem encode_texts (items : List Bytes) :
    (texts? (some items)).encode
      = arrayHead items.length ++ (items.map encodeText).flatten := by
  rw [texts?, encode, encodeItems_eq, length_map, map_map]
  rfl

/-- A list of texts that fits the packed form. -/
def Fits (items : List Bytes) : Prop :=
  items.length < Unpack.limit ∧ ∀ bs ∈ items, bs.length < Unpack.limit

/-- **A list of texts, or none, is read back.** -/
theorem texts_reads {items : Option (List Bytes)} (fits : ∀ l ∈ items, Fits l) :
    Unpack.Reads (Unpack.array? Unpack.text) (texts? items).encode items := by
  cases items with
  | none => exact fun _ => rfl
  | some items =>
    obtain ⟨few, short⟩ := fits items rfl
    rw [encode_texts]
    exact Unpack.array_reads few fun bs h => Unpack.text_reads (short bs h)

end Packed

namespace CachedFile

/-- A file that fits the packed form. A source map is never empty. -/
structure Fits (f : CachedFile) : Prop where
  name : f.name.length < Unpack.limit
  code : f.code.length < Unpack.limit
  sourceMap : ∀ map ∈ f.sourceMap, map ≠ [] ∧ map.length < Unpack.limit

/-- **A file is read back.** -/
theorem reads {f : CachedFile} (fits : f.Fits) :
    Unpack.Reads (Unpack.record keys readField {} {}) f.pack.encode f := by
  obtain ⟨name, code, sourceMap⟩ := f
  have first : Unpack.Reads (Unpack.entry readField {})
      (Packed.encodeText "Name" ++ Packed.encodeText name) { name } :=
    Unpack.entry_reads (by decide) rfl (Unpack.text_reads fits.name).give
  have second : Unpack.Reads (Unpack.entry readField { name })
      (Packed.encodeText "Code" ++ Packed.encodeText code) { name, code } :=
    Unpack.entry_reads (by decide) rfl (Unpack.text_reads fits.code).give
  cases sourceMap with
  | none =>
    have whole : Unpack.Reads (Unpack.entries readField {} 2) _ { name, code } :=
      Unpack.entries_reads first (Unpack.entries_reads second (.pure _))
    exact Unpack.record_reads (by decide : 2 < 16) whole
  | some map =>
    obtain ⟨nonempty, short⟩ := fits.sourceMap map rfl
    have third : Unpack.Reads (Unpack.entry readField { name, code })
        (Packed.encodeText "SourceMap" ++ Packed.encodeBinary map)
        { name, code, sourceMap := some map } :=
      Unpack.entry_reads (by decide) rfl (Unpack.binary_reads short).give
    have whole : Unpack.Reads (Unpack.entries readField {} 3) _ { name, code, sourceMap := some map } :=
      Unpack.entries_reads first (Unpack.entries_reads second (Unpack.entries_reads third (.pure _)))
    have packed : pack ⟨name, code, some map⟩
        = .record [("Name", .text name), ("Code", .text code), ("SourceMap", .binary map)] := by
      rw [pack, Option.getD_some, if_neg (by simpa using nonempty)]
    rw [packed]
    exact Unpack.record_reads (by decide : 3 < 16) whole

end CachedFile

namespace CacheEntry

/-- An entry that fits the packed form. -/
structure Fits (e : CacheEntry) : Prop where
  schema : e.schema < 65536
  key : e.key.length < Unpack.limit
  few : e.files.length < Unpack.limit
  files : ∀ f ∈ e.files, f.Fits
  inputs : ∀ l ∈ e.inputs, Packed.Fits l
  locals : ∀ l ∈ e.locals, Packed.Fits l

/-- The packed form of the files. -/
def packFiles (files : List CachedFile) : Packed :=
  if files.isEmpty then .nil else .array (files.map CachedFile.pack)

theorem readFiles_reads {files : List CachedFile} (few : files.length < Unpack.limit)
    (fits : ∀ f ∈ files, f.Fits) :
    Unpack.Reads (readFiles ⟨e, []⟩) (packFiles files).encode ⟨{ e with files }, files⟩ := by
  cases files with
  | nil => exact fun _ => rfl
  | cons f files =>
    have packed : (packFiles (f :: files)).encode = Packed.arrayHead (f :: files).length
        ++ ((f :: files).map fun f => f.pack.encode).flatten := by
      rw [packFiles, if_neg (by simp), Packed.encode, Packed.encodeItems_eq, length_map,
        map_map]
      rfl
    have read := (Unpack.refill_reads fun f h => CachedFile.reads (fits f h)).give
      (f := fun files => (⟨{ e with files }, files ++ []⟩ : Draft))
    rw [append_nil] at read
    rw [packed, readFiles, ← bind_assoc]
    exact (Unpack.arrayHead_reads few).bind read

/-- A field other than the files. -/
theorem field_reads {change : Unpack CacheEntry} {places : List CachedFile}
    (h : Unpack.Reads change bs e) :
    Unpack.Reads (do return ({ entry := ← change, places } : Draft)) bs ⟨e, places⟩ :=
  h.give (f := fun e => (⟨e, places⟩ : Draft))

/-- **An entry is read back** as it was kept. -/
theorem unpack_pack (fits : e.Fits) : unpack e.pack.encode = .ok e := by
  obtain ⟨schema, key, files, inputs, locals⟩ := e
  have first : Unpack.Reads (Unpack.entry readField {})
      (Packed.encodeText "Schema" ++ (Packed.short schema).encode) ⟨{ schema }, []⟩ := by
    have read := (Unpack.word_reads fits.schema).give
      (f := fun word => ({ schema := word % 65536 } : CacheEntry))
    rw [Nat.mod_eq_of_lt fits.schema] at read
    exact Unpack.entry_reads (by decide) rfl (field_reads read)
  have second : Unpack.Reads (Unpack.entry readField ⟨{ schema }, []⟩)
      (Packed.encodeText "Key" ++ Packed.encodeText key) ⟨{ schema, key }, []⟩ := by
    have read := (Unpack.text_reads fits.key).give
      (f := fun key => ({ schema, key } : CacheEntry))
    exact Unpack.entry_reads (by decide) rfl (field_reads read)
  have third : Unpack.Reads (Unpack.entry readField ⟨{ schema, key }, []⟩)
      (Packed.encodeText "Files" ++ (packFiles files).encode) ⟨{ schema, key, files }, files⟩ :=
    Unpack.entry_reads (by decide) rfl (readFiles_reads fits.few fits.files)
  have fourth : Unpack.Reads (Unpack.entry readField ⟨{ schema, key, files }, files⟩)
      (Packed.encodeText "Inputs" ++ (Packed.texts? inputs).encode)
      ⟨{ schema, key, files, inputs }, files⟩ := by
    have read := (Packed.texts_reads fits.inputs).give (f := fun given =>
      ({ schema, key, files, inputs := given.orElse fun _ => none } : CacheEntry))
    have same : (inputs.orElse fun _ => none) = inputs := by cases inputs <;> rfl
    rw [same] at read
    exact Unpack.entry_reads (by decide) rfl (field_reads read)
  have fifth : Unpack.Reads (Unpack.entry readField ⟨{ schema, key, files, inputs }, files⟩)
      (Packed.encodeText "Locals" ++ (Packed.texts? locals).encode)
      ⟨{ schema, key, files, inputs, locals }, files⟩ := by
    have read := (Packed.texts_reads fits.locals).give (f := fun given =>
      ({ schema, key, files, inputs, locals := given.orElse fun _ => none } : CacheEntry))
    have same : (locals.orElse fun _ => none) = locals := by cases locals <;> rfl
    rw [same] at read
    exact Unpack.entry_reads (by decide) rfl (field_reads read)
  have inner : Unpack.Reads (Unpack.entries readField {} 5) _
      (⟨{ schema, key, files, inputs, locals }, files⟩ : Draft) :=
    Unpack.entries_reads first (Unpack.entries_reads second (Unpack.entries_reads third
      (Unpack.entries_reads fourth (Unpack.entries_reads fifth (.pure _)))))
  have whole : Unpack.Reads (Unpack.record keys readField {} {}) _ _ :=
    Unpack.record_reads (by decide : 5 < 16) inner
  have read := whole []
  rw [append_nil] at read
  exact congrArg (Except.map fun d : Draft × Bytes => d.1.entry) read

end CacheEntry

end TemplateCompiler
