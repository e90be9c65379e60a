import DnsHive.Lib.Msgpack
import Mathlib.Algebra.Order.BigOperators.Group.List
import Mathlib.Tactic.IntervalCases
import Mathlib.Tactic.Ring

/-!
# A stream of MessagePack objects

There is nothing between the objects of a stream: where one ends, the next one begins.  So the
reader can only find the second one if the first one was packed with the number of pairs that its
header says.

* `format_inverts` — one map that fits into the format is read back, so the format is a codec.
* `decode_packed` — the same for a stream: `decode` reads objects until no byte is left, and finds
  the maps that were packed.

Every lemma about reading has bytes behind the ones that are read, and says that they are left over.
-/

set_option autoImplicit false

namespace Msgpack

/-- The format has room for the value. -/
def Scalar.Fits : Scalar → Prop
  | .raw s => s.length < 2 ^ 32
  | .double _ => True
  | .int i => -2 ^ 63 ≤ i ∧ i < 2 ^ 64

instance : DecidablePred Scalar.Fits
  | .raw s => inferInstanceAs (Decidable (s.length < 2 ^ 32))
  | .double _ => .isTrue trivial
  | .int i => inferInstanceAs (Decidable (-2 ^ 63 ≤ i ∧ i < 2 ^ 64))

/-- The format has room for the map. -/
def MapFits (pairs : List (Scalar × Scalar)) : Prop :=
  pairs.length < 2 ^ 32 ∧ ∀ kv ∈ pairs, kv.1.Fits ∧ kv.2.Fits

instance (pairs : List (Scalar × Scalar)) : Decidable (MapFits pairs) :=
  inferInstanceAs (Decidable (_ ∧ _))

/-- The objects that follow each other until no byte is left.  `fuel` bounds their number. -/
def readStream : Nat → Bytes → Option (List Object)
  | _, [] => some []
  | 0, _ :: _ => none
  | fuel + 1, b :: bs => do
    let (v, rest) ← readObject ((b :: bs).length + 1) (b :: bs)
    return v :: (← readStream fuel rest)

/-- All objects of a stream, where every object has one byte at least. -/
def decode (bs : Bytes) : Option (List Object) := readStream bs.length bs

/-! ## Numbers -/

theorem readBigEndian_bigEndian (k acc n : Nat) (rest : Bytes) :
    readBigEndian k acc (bigEndian k n ++ rest) = some (acc * 256 ^ k + n % 256 ^ k, rest) := by
  induction k generalizing acc with
  | zero => simp [bigEndian, readBigEndian, Nat.mod_one]
  | succ k ih =>
    have hdigit : (UInt8.ofNat (n / 256 ^ k)).toNat = n / 256 ^ k % 256 := by simp
    rw [bigEndian, List.cons_append, readBigEndian, ih, hdigit, Nat.mod_pow_succ, Nat.pow_succ]
    congr 2
    ring

theorem readBigEndian_of_lt {k n : Nat} (h : n < 256 ^ k) (rest : Bytes) :
    readBigEndian k 0 (bigEndian k n ++ rest) = some (n, rest) := by
  rw [readBigEndian_bigEndian, Nat.mod_eq_of_lt h, Nat.zero_mul, Nat.zero_add]

/-- The two's complement of a negative number is read as that number. -/
theorem signed_complement {k : Nat} {i : Int} (hk : 0 < k) (hlow : -2 ^ (8 * k - 1) ≤ i)
    (hneg : i < 0) : signed k (2 ^ (8 * k) + i).toNat = i := by
  have hdouble : (2 : Int) ^ (8 * k) = 2 * 2 ^ (8 * k - 1) := by
    rw [← pow_succ', Nat.sub_add_cancel (by omega)]
  have hcast : (((2 ^ (8 * k) + i).toNat : Nat) : Int) = 2 ^ (8 * k) + i :=
    Int.toNat_of_nonneg (by omega)
  have hhigh : ¬ (2 ^ (8 * k) + i).toNat < 2 ^ (8 * k - 1) := by
    rw [← Int.ofNat_lt]
    push_cast [hcast]
    omega
  rw [signed, if_neg hhigh, hcast]
  omega

theorem toNat_header {n : Nat} (h : n < 256) : (UInt8.ofNat n).toNat = n := by
  simpa using h

/-! ## Values -/

variable (fuel : Nat) (rest : Bytes)

/-- A number of `2 ^ w` bytes without a sign. -/
theorem readObject_unsigned {w n : Nat} (hw : w ≤ 3) (hn : n < 256 ^ 2 ^ w) :
    readObject (fuel + 1) (UInt8.ofNat (0xcc + w) :: (bigEndian (2 ^ w) n ++ rest)) =
      some (.scalar (.int n), rest) := by
  have hnum := readBigEndian_of_lt hn rest
  interval_cases w <;> simp_all [readObject]

/-- A negative number of `2 ^ w` bytes. -/
theorem readObject_signed {w : Nat} {i : Int} (hw : w ≤ 3) (hlow : -2 ^ (8 * 2 ^ w - 1) ≤ i)
    (hneg : i < 0) :
    readObject (fuel + 1)
        (UInt8.ofNat (0xd0 + w) :: (bigEndian (2 ^ w) (2 ^ (8 * 2 ^ w) + i).toNat ++ rest)) =
      some (.scalar (.int i), rest) := by
  have hread (bs : Bytes) : readObject (fuel + 1) (UInt8.ofNat (0xd0 + w) :: bs) =
      (readBigEndian (2 ^ w) 0 bs).map fun r ↦ (.scalar (.int (signed (2 ^ w) r.1)), r.2) := by
    interval_cases w <;> simp [readObject]
  have hlt : (2 ^ (8 * 2 ^ w) + i).toNat < 256 ^ 2 ^ w := by
    rw [← Int.ofNat_lt, ← show (2 : Nat) ^ 8 = 256 from rfl, ← pow_mul]
    have hpos := pow_pos (show 0 < (2 : Int) by decide) (8 * 2 ^ w)
    push_cast
    omega
  rw [hread, readBigEndian_of_lt hlt rest, Option.map_some,
    signed_complement (Nat.two_pow_pos w) hlow hneg]

/-- A negative number in the header itself. -/
theorem readObject_negative {n : Nat} (hlow : 0xe0 ≤ n) (hhigh : n < 0x100) :
    readObject (fuel + 1) (UInt8.ofNat n :: rest) = some (.scalar (.int (n - 256)), rest) := by
  rw [readObject]
  simp only [toNat_header hhigh]
  repeat rw [if_neg (by omega)]
  rw [if_pos hlow]

theorem readObject_encodeInt {i : Int} (hlow : -2 ^ 63 ≤ i) (hhigh : i < 2 ^ 64) :
    readObject (fuel + 1) (encodeInt i ++ rest) = some (.scalar (.int i), rest) := by
  rw [encodeInt]
  split_ifs with hsign h7 h8 h16 h32 h5 h7 h15 h31
  · rw [List.cons_append, readObject]
    simp only [toNat_header (n := i.toNat) (by omega)]
    rw [if_pos (by omega), Int.toNat_of_nonneg hsign, List.nil_append]
  · have hread := readObject_unsigned fuel rest (w := 0) (n := i.toNat) (by omega) (by omega)
    simpa [Int.toNat_of_nonneg hsign] using hread
  · have hread := readObject_unsigned fuel rest (w := 1) (n := i.toNat) (by omega) (by omega)
    simpa [Int.toNat_of_nonneg hsign] using hread
  · have hread := readObject_unsigned fuel rest (w := 2) (n := i.toNat) (by omega) (by omega)
    simpa [Int.toNat_of_nonneg hsign] using hread
  · have hread := readObject_unsigned fuel rest (w := 3) (n := i.toNat) (by omega) (by omega)
    simpa [Int.toNat_of_nonneg hsign] using hread
  · have hvalue : (((2 ^ 8 + i).toNat : Nat) : Int) - 256 = i := by omega
    rw [List.cons_append, readObject_negative fuel _ (by omega) (by omega), hvalue, List.nil_append]
  · simpa using readObject_signed fuel rest (w := 0) (i := i) (by omega) (by omega) (by omega)
  · exact readObject_signed fuel rest (w := 1) (by omega) (by omega) (by omega)
  · exact readObject_signed fuel rest (w := 2) (by omega) (by omega) (by omega)
  · exact readObject_signed fuel rest (w := 3) (by omega) (by omega) (by omega)

theorem readObject_encodeRaw {s : Bytes} (hs : s.length < 2 ^ 32) :
    readObject (fuel + 1) (encodeRaw s ++ rest) = some (.scalar (.raw s), rest) := by
  have hraw : readRaw s.length (s ++ rest) = some (.scalar (.raw s), rest) := by simp [readRaw]
  rw [encodeRaw]
  split_ifs with hfix hshort
  · rw [List.cons_append, readObject]
    simp only [toNat_header (n := 0xa0 + s.length) (by omega)]
    rw [if_neg (by omega), if_neg (by omega), if_neg (by omega), if_pos (by omega),
      Nat.add_sub_cancel_left, hraw]
  · have hlen := readBigEndian_of_lt (k := 2) hshort (s ++ rest)
    simp [readObject, hlen, hraw]
  · have hlen := readBigEndian_of_lt (k := 4) hs (s ++ rest)
    simp [readObject, hlen, hraw]

/-- **Packing a value and reading it back.** -/
theorem readObject_pack {v : Scalar} (hv : v.Fits) :
    readObject (fuel + 1) (encodeToken (.pack v) ++ rest) = some (.scalar v, rest) := by
  cases v with
  | raw s => exact readObject_encodeRaw fuel rest hv
  | double bits =>
    have hbits := readBigEndian_of_lt (k := 8) bits.toNat_lt rest
    simp [encodeToken, readObject, hbits]
  | int i => exact readObject_encodeInt fuel rest hv.1 hv.2

/-! ## Maps -/

/-- The bytes of a map are its header and its pairs. -/
theorem pack_packed (pairs : List (Scalar × Scalar)) :
    format.pack (packed pairs) = encodeMap pairs.length ++
      pairs.flatMap fun kv ↦ encodeToken (.pack kv.1) ++ encodeToken (.pack kv.2) := by
  simp [format, packed, encodeToken, List.flatMap_assoc]

theorem encodeToken_ne_nil (t : Token) : encodeToken t ≠ [] := by
  fun_cases encodeToken t with
  | case1 n => rw [encodeMap]; split_ifs <;> simp
  | case2 s => rw [encodeRaw]; split_ifs <;> simp
  | case3 bits => simp
  | case4 i => rw [encodeInt]; split_ifs <;> simp

/-- There are no fewer bytes than parts if no part is empty. -/
theorem length_le_flatMap {α : Type} {l : List α} {f : α → Bytes} (h : ∀ x ∈ l, f x ≠ []) :
    l.length ≤ (l.flatMap f).length := by
  have hparts := (l.map fun x ↦ (f x).length).length_le_sum_of_one_le fun i hi ↦ by
    obtain ⟨x, hx, rfl⟩ := List.mem_map.mp hi
    exact List.length_pos_iff.mpr (h x hx)
  rwa [List.length_map, ← List.length_flatMap] at hparts

/-- A map has more bytes than pairs. -/
theorem length_lt_pack (pairs : List (Scalar × Scalar)) :
    pairs.length < (format.pack (packed pairs)).length := by
  have hpairs := length_le_flatMap (l := pairs)
    (f := fun kv ↦ encodeToken (.pack kv.1) ++ encodeToken (.pack kv.2)) fun kv _ ↦ by
      simp [encodeToken_ne_nil]
  have hheader := List.length_pos_iff.mpr (encodeToken_ne_nil (.packMap pairs.length))
  rw [pack_packed, List.length_append]
  rw [encodeToken] at hheader
  omega

/-- The pairs of a map, read one after the other. -/
theorem readPairs_pairs {pairs : List (Scalar × Scalar)}
    (hfits : ∀ kv ∈ pairs, kv.1.Fits ∧ kv.2.Fits) (hfuel : pairs.length < fuel) :
    readPairs fuel pairs.length
        ((pairs.flatMap fun kv ↦ encodeToken (.pack kv.1) ++ encodeToken (.pack kv.2)) ++ rest) =
      some (unpacked pairs, rest) := by
  induction pairs generalizing fuel with
  | nil => cases fuel <;> rfl
  | cons kv kvs ih =>
    obtain ⟨fuel, rfl⟩ : ∃ k, fuel = k + 2 := ⟨fuel - 2, by simp at hfuel; omega⟩
    obtain ⟨hkey, hvalue⟩ := hfits kv (by simp)
    have htail := ih (fuel + 1) (fun kv hkv ↦ hfits kv (by simp [hkv])) (by simp at hfuel; omega)
    rw [List.length_cons, readPairs, List.flatMap_cons]
    simp only [List.append_assoc]
    simp [readObject_pack, hkey, hvalue, htail, unpacked]

/-- **Packing a map and reading it back.** -/
theorem readObject_packed {pairs : List (Scalar × Scalar)} (hfits : MapFits pairs)
    (hfuel : pairs.length < fuel) :
    readObject (fuel + 1) (format.pack (packed pairs) ++ rest) = some (unpacked pairs, rest) := by
  have hpairs := readPairs_pairs fuel rest hfits.2 hfuel
  rw [pack_packed, List.append_assoc, encodeMap]
  split_ifs with hfix hshort
  · rw [List.cons_append, readObject]
    simp only [toNat_header (n := 0x80 + pairs.length) (by omega)]
    rw [if_neg (by omega), if_pos (by omega), Nat.add_sub_cancel_left, List.nil_append, hpairs]
  · rw [List.cons_append, readObject]
    simp [readBigEndian_of_lt (k := 2) hshort, hpairs]
  · rw [List.cons_append, readObject]
    simp [readBigEndian_of_lt (k := 4) hfits.1, hpairs]

/-- The format obeys the law of a codec. -/
theorem format_inverts {pairs : List (Scalar × Scalar)} (hfits : MapFits pairs) :
    format.Inverts pairs := by
  have hread := readObject_packed _ [] hfits (length_lt_pack pairs)
  rw [List.append_nil] at hread
  exact congrArg (Option.map Prod.fst) hread

/-! ## Streams -/

theorem readStream_packed {maps : List (List (Scalar × Scalar))}
    (hfits : ∀ pairs ∈ maps, MapFits pairs) (hfuel : maps.length ≤ fuel) :
    readStream fuel (maps.flatMap fun pairs ↦ format.pack (packed pairs)) =
      some (maps.map unpacked) := by
  induction maps generalizing fuel with
  | nil => cases fuel <;> rfl
  | cons pairs maps ih =>
    obtain ⟨fuel, rfl⟩ : ∃ k, fuel = k + 1 := ⟨fuel - 1, by simp at hfuel; omega⟩
    have hlong := length_lt_pack pairs
    have htail := ih fuel (fun pairs hpairs ↦ hfits pairs (by simp [hpairs])) (by simpa using hfuel)
    rw [List.flatMap_cons]
    have hhead := readObject_packed
      (format.pack (packed pairs) ++ maps.flatMap fun pairs ↦ format.pack (packed pairs)).length
      (maps.flatMap fun pairs ↦ format.pack (packed pairs)) (hfits pairs (by simp))
      (by rw [List.length_append]; omega)
    cases hbytes : format.pack (packed pairs) ++
        maps.flatMap fun pairs ↦ format.pack (packed pairs) with
    | nil => simp [List.append_eq_nil_iff.mp hbytes] at hlong
    | cons b bs =>
      rw [hbytes] at hhead
      rw [readStream, hhead]
      simp [htail]

/-- **The round trip of a stream.**  The objects are the maps, in their order, and no byte is left
over. -/
theorem decode_packed {maps : List (List (Scalar × Scalar))}
    (hfits : ∀ pairs ∈ maps, MapFits pairs) :
    decode (maps.flatMap fun pairs ↦ format.pack (packed pairs)) = some (maps.map unpacked) := by
  refine readStream_packed _ hfits (length_le_flatMap fun pairs _ hnil ↦ ?_)
  have hlong := length_lt_pack pairs
  rw [hnil] at hlong
  cases hlong

end Msgpack
