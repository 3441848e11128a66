import TemplateCompiler.Proofs.Cache.Key

/-!
# One encoding for each value

Settings of any shape are packed with the entries of every map in the order of
their keys. So a packed value does not depend on the order in which a map was
given, and two values with one encoding differ in nothing else: the first byte
tells the kind of a value, and no encoding is the start of another
(`Packed.encode_inj`). With the lengths before all other texts, what is digested
for a cache key settles source, partials and settings
(`CacheKey.input_eq_iff`).
-/

open List

namespace TemplateCompiler

namespace Bytes

theorem le_antisymm {a b : Bytes} (ab : le a b = true) (ba : le b a = true) : a = b :=
  List.le_antisymm ((le_iff a b).1 ab) ((le_iff b a).1 ba)

/-- **Sorting by distinct keys forgets the order.** -/
theorem mergeSort_eq_of_perm {α : Type} {xs ys : List (Bytes × α)} (perm : xs.Perm ys)
    (distinct : (xs.map Prod.fst).Nodup) :
    xs.mergeSort (fun a b => le a.1 b.1) = ys.mergeSort (fun a b => le a.1 b.1) := by
  have sorted (zs : List (Bytes × α)) :
      (zs.mergeSort fun a b => le a.1 b.1).Pairwise fun a b => le a.1 b.1 = true :=
    @List.pairwise_mergeSort _ (fun a b => le a.1 b.1) (fun _ _ _ => le_trans)
      (fun a b => le_total a.1 b.1) zs
  have unique : ∀ a ∈ xs, ∀ b ∈ xs, a.1 = b.1 → a = b := fun a ha b hb same =>
    inj_on_of_nodup_map distinct ha hb same
  refine List.Perm.eq_of_pairwise (fun a b ha hb ab ba => ?_) (sorted xs) (sorted ys)
    ((mergeSort_perm xs _).trans (perm.trans (mergeSort_perm ys _).symm))
  exact unique a (mem_mergeSort.1 ha) b (perm.mem_iff.2 (mem_mergeSort.1 hb))
    (le_antisymm ab ba)

end Bytes

namespace Packed

variable {rest rest' : Bytes} {a b : Packed}

open Unpack

/-! ## Data -/

/-- **A value as settings hold it**, with integers of 64 bits, maps with
distinct keys and nothing that needs more than four bytes for its length. -/
inductive IsData : Packed → Prop
  | nil : IsData .nil
  | bool (b : Bool) : IsData (.bool b)
  | int {n : Int} (low : -2 ^ 63 ≤ n) (high : n < 2 ^ 63) : IsData (.int n)
  | double (d : Double) : IsData (.double d)
  | text {bs : Bytes} (short : bs.length < limit) : IsData (.text bs)
  | array {items : List Packed} (few : items.length < limit)
      (each : ∀ item ∈ items, IsData item) : IsData (.array items)
  | map {entries : List (Bytes × Packed)} (few : entries.length < limit)
      (distinct : (entries.map Prod.fst).Nodup) (short : ∀ e ∈ entries, e.1.length < limit)
      (each : ∀ e ∈ entries, IsData e.2) : IsData (.map entries)

/-- **The same value, up to the order of the entries of maps**: as many entries,
and to each of them one with its key and the same value. -/
inductive Same : Packed → Packed → Prop
  | refl (a : Packed) : Same a a
  | array {items items' : List Packed} (length : items.length = items'.length)
      (each : ∀ p ∈ items.zip items', Same p.1 p.2) : Same (.array items) (.array items')
  | map {entries entries' : List (Bytes × Packed)} (length : entries.length = entries'.length)
      (other : Bytes × Packed → Packed) (found : ∀ e ∈ entries, (e.1, other e) ∈ entries')
      (each : ∀ e ∈ entries, Same e.2 (other e)) : Same (.map entries) (.map entries')

/-! ## Kinds -/

/-- What a value of data is. -/
inductive Kind where
  | nil | bool | int | double | text | array | map
deriving DecidableEq

def kind? : Packed → Option Kind
  | .nil => some .nil
  | .bool _ => some .bool
  | .int _ => some .int
  | .double _ => some .double
  | .text _ => some .text
  | .array _ => some .array
  | .map _ => some .map
  | .short _ | .binary _ | .record _ => none

/-- The kind of the values whose encoding starts with this byte. -/
def codeKind? (c : UInt8) : Option Kind :=
  if c = 0xc0 then some .nil
  else if c = 0xc2 ∨ c = 0xc3 then some .bool
  else if c = 0xd3 then some .int
  else if c = 0xcb then some .double
  else if 0xa0 ≤ c ∧ c < 0xc0 ∨ 0xd9 ≤ c ∧ c ≤ 0xdb then some .text
  else if 0x90 ≤ c ∧ c < 0xa0 ∨ 0xdc ≤ c ∧ c ≤ 0xdd then some .array
  else if 0x80 ≤ c ∧ c < 0x90 ∨ 0xde ≤ c ∧ c ≤ 0xdf then some .map
  else none

theorem head_kind {small : Nat} {fixed two four : UInt8} {byte? : Option UInt8} {k : Kind}
    (inside : ∀ n < small, codeKind? (fixed + UInt8.ofNat n) = some k)
    (one : ∀ c ∈ byte?, codeKind? c = some k) (wide : codeKind? two = some k)
    (wider : codeKind? four = some k) (n : Nat) (rest : Bytes) :
    (head small fixed byte? two four n ++ rest).head?.bind codeKind? = some k := by
  unfold head
  split
  · next few => exact inside n few
  · cases byte? with
    | none => dsimp only; split <;> assumption
    | some c =>
      dsimp only
      split
      · exact one c rfl
      · split <;> assumption

/-- **The first byte of an encoding tells the kind** of the value. -/
theorem encode_kind (data : a.IsData) (rest : Bytes) :
    (a.encode ++ rest).head?.bind codeKind? = a.kind? := by
  cases data with
  | nil => rfl
  | bool b => cases b <;> rfl
  | int => rfl
  | double => rfl
  | text =>
    rw [encode, encodeText, append_assoc]
    exact head_kind (by decide) (by rintro _ ⟨⟩; rfl) rfl rfl _ _
  | array =>
    rw [encode, append_assoc]
    exact head_kind (by decide) (by simp) rfl rfl _ _
  | map =>
    rw [encode, append_assoc]
    exact head_kind (by decide) (by simp) rfl rfl _ _

theorem IsData.kind_isSome (data : a.IsData) : a.kind?.isSome := by
  cases data <;> rfl

/-- No encoding starts with a zero. -/
theorem encode_head (data : a.IsData) : a.encode.head? ≠ some 0 := by
  intro zero
  have kind := encode_kind data []
  rw [append_nil, zero] at kind
  exact absurd (kind ▸ data.kind_isSome) (by decide)

/-! ## Reading in one way -/

/-- **Parts that are read in one way make lists that are.** -/
theorem flatMap_inj {α : Type} {R : α → α → Prop} {f : α → Bytes} {xs ys : List α}
    (length : xs.length = ys.length)
    (each : ∀ x ∈ xs, ∀ y ∈ ys, ∀ r r', f x ++ r = f y ++ r' → R x y ∧ r = r')
    (same : xs.flatMap f ++ rest = ys.flatMap f ++ rest') :
    List.Forall₂ R xs ys ∧ rest = rest' := by
  induction xs generalizing ys with
  | nil =>
    rw [eq_nil_of_length_eq_zero length.symm] at same ⊢
    exact ⟨.nil, same⟩
  | cons x xs ih =>
    match ys, length with
    | y :: ys, length =>
      rw [flatMap_cons, flatMap_cons, append_assoc, append_assoc] at same
      obtain ⟨first, same⟩ := each x mem_cons_self y mem_cons_self _ _ same
      obtain ⟨others, ends⟩ := ih (Nat.succ.inj length)
        (fun x hx y hy => each x (mem_cons_of_mem _ hx) y (mem_cons_of_mem _ hy)) same
      exact ⟨.cons first others, ends⟩

/-- An entry of a map. -/
def encodeEntry (e : Bytes × Packed) : Bytes := encodeText e.1 ++ e.2.encode

theorem encodeEntries_eq (entries : List (Bytes × Packed)) :
    encodeEntries entries = entries.map fun e => (e.1, e.2.encode) := by
  induction entries with
  | nil => rfl
  | cons e entries ih => rw [encodeEntries, ih]; rfl

/-- The entries of a map in the order of their keys. -/
def sorted (entries : List (Bytes × Packed)) : List (Bytes × Packed) :=
  entries.mergeSort fun a b => Bytes.le a.1 b.1

theorem encode_map (entries : List (Bytes × Packed)) :
    (Packed.map entries).encode = mapHead entries.length ++ (sorted entries).flatMap encodeEntry := by
  have moved : (entries.map fun e => (e.1, e.2.encode)).mergeSort (fun a b => Bytes.le a.1 b.1)
      = (sorted entries).map fun e => (e.1, e.2.encode) :=
    (map_mergeSort (f := fun e : Bytes × Packed => (e.1, e.2.encode)) fun _ _ _ _ => rfl).symm
  rw [encode, encodeEntries_eq, sortEntries, moved, joinEntries, flatMap_map]
  rfl

theorem encode_array (items : List Packed) :
    (Packed.array items).encode = arrayHead items.length ++ items.flatMap encode := by
  rw [encode, encodeItems_eq, flatMap_def]

/-- Entries that are the same one by one, in the order of their keys. -/
theorem Same.of_sorted {entries entries' : List (Bytes × Packed)}
    (each : List.Forall₂ (fun e e' => e.1 = e'.1 ∧ e.2.Same e'.2) (sorted entries)
      (sorted entries')) : Same (.map entries) (.map entries') := by
  have length : entries.length = entries'.length := by
    have lengths := each.length_eq
    rwa [sorted, sorted, length_mergeSort, length_mergeSort] at lengths
  have partner : ∀ e ∈ entries, ∃ v, (e.1, v) ∈ entries' ∧ e.2.Same v := by
    intro e h
    obtain ⟨i, rfl⟩ := get_of_mem (mem_mergeSort.2 h : e ∈ sorted entries)
    obtain ⟨lengths, all⟩ := forall₂_iff_get.1 each
    have inside : i < (sorted entries').length := lengths ▸ i.isLt
    obtain ⟨key, value⟩ := all i i.isLt inside
    exact ⟨_, key ▸ mem_mergeSort.1 (get_mem _ ⟨i, inside⟩), value⟩
  choose! other found same using partner
  exact .map length other found same

/-- **No encoding is the start of another**, and values with one encoding are
the same. -/
theorem encode_inj (data : a.IsData) (data' : b.IsData)
    (same : a.encode ++ rest = b.encode ++ rest') : a.Same b ∧ rest = rest' := by
  have kinds : a.kind? = b.kind? := by rw [← encode_kind data rest, same, encode_kind data']
  induction data generalizing b rest rest' with
  | nil =>
    cases data' <;> cases kinds
    exact ⟨.refl _, append_cancel_left same⟩
  | bool =>
    cases data' <;> cases kinds
    obtain ⟨rfl, ends⟩ := (Settings.bool_reads _).inj (Settings.bool_reads _) same
    exact ⟨.refl _, ends⟩
  | @int n low high =>
    cases data' <;> cases kinds
    next n' low' high' =>
    have fits (m : Int) : (m % 2 ^ 64).toNat < 256 ^ 8 := by omega
    obtain ⟨numbers, ends⟩ := (nat_reads (fits n)).inj (nat_reads (fits n'))
      (tail_eq_of_cons_eq same)
    obtain rfl : n = n' := by omega
    exact ⟨.refl _, ends⟩
  | double d =>
    cases data' <;> cases kinds
    next d' =>
    have fits (e : Double) : e.bits.toNat < 256 ^ 8 := e.bits.toNat_lt
    obtain ⟨bits, ends⟩ := (nat_reads (fits d)).inj (nat_reads (fits d'))
      (tail_eq_of_cons_eq same)
    have equal : d = d' := congrArg Double.mk (UInt64.toNat_inj.1 bits)
    exact ⟨equal ▸ .refl _, ends⟩
  | text short =>
    cases data' <;> cases kinds
    next short' =>
    obtain ⟨rfl, ends⟩ := (text_reads short).inj (text_reads short') same
    exact ⟨.refl _, ends⟩
  | @array items few each ih =>
    cases data' <;> cases kinds
    next items' few' each' =>
    rw [encode_array, encode_array, append_assoc, append_assoc] at same
    obtain ⟨lengths, same⟩ := (arrayHead_reads few).inj (arrayHead_reads few') same
    obtain ⟨all, ends⟩ := flatMap_inj (R := Same) (Option.some.inj lengths)
      (fun x hx y hy r r' h => ih x hx (each' y hy) h
        (by rw [← encode_kind (each x hx) r, h, encode_kind (each' y hy)])) same
    obtain ⟨length, zips⟩ := forall₂_iff_zip.1 all
    exact ⟨.array length fun p h => zips h, ends⟩
  | @map entries few distinct short each ih =>
    cases data' <;> cases kinds
    next entries' few' distinct' short' each' =>
    rw [encode_map, encode_map, append_assoc, append_assoc] at same
    obtain ⟨lengths, same⟩ := (mapHead_reads few).inj (mapHead_reads few') same
    have sizes : (sorted entries).length = (sorted entries').length := by
      rw [sorted, sorted, length_mergeSort, length_mergeSort]
      exact Option.some.inj lengths
    obtain ⟨all, ends⟩ := flatMap_inj (R := fun e e' => e.1 = e'.1 ∧ e.2.Same e'.2) sizes
      (fun e he e' he' r r' h => by
        have mem := mem_mergeSort.1 he
        have mem' := mem_mergeSort.1 he'
        rw [encodeEntry, encodeEntry, append_assoc, append_assoc] at h
        obtain ⟨keys, values⟩ := (text_reads (short e mem)).inj (text_reads (short' e' mem')) h
        obtain ⟨value, ends⟩ := ih e mem (each' e' mem') values
          (by rw [← encode_kind (each e mem) r, values, encode_kind (each' e' mem')])
        exact ⟨⟨keys, value⟩, ends⟩) same
    exact ⟨.of_sorted all, ends⟩

/-! ## The order of entries -/

/-- **The same value has the same encoding**, in whatever order its maps are
given. -/
theorem Same.encode_eq (same : a.Same b) (data : a.IsData) (data' : b.IsData) :
    a.encode = b.encode := by
  induction same with
  | refl => rfl
  | @array items items' length each ih =>
    cases data with | array few all =>
    cases data' with | array few' all' =>
    have items : List.Forall₂ (fun x y => x.encode = y.encode) items items' :=
      forall₂_iff_zip.2 ⟨length, fun {x y} h =>
        ih (x, y) h (all x (of_mem_zip h).1) (all' y (of_mem_zip h).2)⟩
    have equal := forall₂_eq_eq_eq ▸ forall₂_map_left_iff.2 (forall₂_map_right_iff.2 items)
    rw [encode, encode, encodeItems_eq, encodeItems_eq, length, equal]
  | @map entries entries' length other found each ih =>
    cases data with | map few distinct short all =>
    cases data' with | map few' distinct' short' all' =>
    have keys (es : List (Bytes × Packed)) : (encodeEntries es).map Prod.fst = es.map Prod.fst := by
      rw [encodeEntries_eq, map_map]
      rfl
    have subset : encodeEntries entries ⊆ encodeEntries entries' := by
      rw [encodeEntries_eq, encodeEntries_eq]
      intro p h
      obtain ⟨e, mem, rfl⟩ := mem_map.1 h
      rw [ih e mem (all e mem) (all' _ (found e mem))]
      exact mem_map_of_mem (f := fun e => (e.1, e.2.encode)) (found e mem)
    have nodup : (encodeEntries entries).Nodup := by
      refine List.Nodup.of_map Prod.fst ?_
      rw [keys]
      exact distinct
    have perm : (encodeEntries entries).Perm (encodeEntries entries') :=
      (subperm_of_subset nodup subset).perm_of_length_le
        (by rw [encodeEntries_eq, encodeEntries_eq, length_map, length_map, length])
    rw [encode, encode, length, sortEntries, sortEntries,
      Bytes.mergeSort_eq_of_perm perm (by rw [keys]; exact distinct)]

end Packed

namespace CacheKey

/-- **What is digested is settled by source, partials and settings, and settles
them.** Neither the order of the partials nor that of the entries of a map
counts. -/
theorem input_eq_iff {source source' : Bytes} {lib lib' : Library} {settings settings' : Packed}
    (short : Short source) (short' : Short source') (fits : AllShort lib.partials)
    (fits' : AllShort lib'.partials) (distinct : lib.names.Nodup) (data : settings.IsData)
    (data' : settings'.IsData) :
    input source lib settings = input source' lib' settings' ↔
      source = source' ∧ lib.partials.Perm lib'.partials ∧ settings.Same settings' := by
  constructor
  · intro same
    obtain ⟨sources, partials, packed⟩ := input_inj short short' fits fits'
      (Packed.encode_head data) (Packed.encode_head data') same
    have perm : lib.partials.Perm lib'.partials := by
      have there := List.mergeSort_perm lib'.partials fun a b => Bytes.le a.1 b.1
      rw [← sortedPartials, ← partials] at there
      exact (List.mergeSort_perm _ _).symm.trans there
    exact ⟨sources, perm, (Packed.encode_inj data data' (congrArg (· ++ []) packed)).1⟩
  · rintro ⟨rfl, perm, same⟩
    rw [input, input, sortedPartials, sortedPartials, Bytes.mergeSort_eq_of_perm perm distinct,
      same.encode_eq data data']

/-- A library whose partials and settings whose entries come in another order
are digested as before. A name that takes a byte from its source is not. -/
theorem input_reordered :
    input "s" ⟨[("a", "bc"), ("b", "")]⟩ (.map [("k", .int (-1)), ("j", .array [.nil])])
        = input "s" ⟨[("b", ""), ("a", "bc")]⟩ (.map [("j", .array [.nil]), ("k", .int (-1))])
      ∧ input "s" ⟨[("a", "bc"), ("b", "")]⟩ (.map []) ≠ input "s" ⟨[("ab", "c"), ("b", "")]⟩ (.map []) := by
  have short : Short "s" := by unfold Short; decide
  have empty : (Packed.map []).IsData := .map (by decide) (by decide) (by simp) (by simp)
  have number : (Packed.int (-1)).IsData := .int (by decide) (by decide)
  have item : (Packed.array [.nil]).IsData := .array (by decide) (by simpa using .nil)
  constructor
  · refine (input_eq_iff short short (by unfold AllShort Short; decide)
      (by unfold AllShort Short; decide) (by decide)
      (.map (by decide) (by decide) (by decide) (by simpa using ⟨number, item⟩))
      (.map (by decide) (by decide) (by decide) (by simpa using ⟨item, number⟩))).2
      ⟨rfl, .swap _ _ _, .map rfl Prod.snd (by simp) fun e _ => .refl e.2⟩
  · intro same
    have perm := ((input_eq_iff short short (by unfold AllShort Short; decide)
      (by unfold AllShort Short; decide) (by decide) empty empty).1 same).2.1
    have moved : (("a", "bc") : Bytes × Bytes) ∈ [(("ab", "c") : Bytes × Bytes), ("b", "")] :=
      perm.mem_iff.1 List.mem_cons_self
    exact absurd moved (by decide)

end CacheKey

end TemplateCompiler
