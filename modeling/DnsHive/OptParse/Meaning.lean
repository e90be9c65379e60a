import Mathlib.Data.List.Sort
import DnsHive.OptParse.CommandLine

/-!
# The parser does what an option means

`DnsHive.OptParse.CommandLine` says what a name stands for, which values an option accepts and what
becomes of the program, without the functions of the parser.  Here each of these functions is shown
to do what is said there.

* `extract` reads the number that a value begins with (`extract_iff`): `Numeral` is written with the
  digits of the value and not with the loop that adds them up.
* `checkType` finds nothing wrong exactly with the values that are accepted (`checkType_eq_nil`), so
  that `processOpt` either assigns the value or ends the program (`processOpt_goesOn`,
  `processOpt_ends`).  There is no third case: `goesOn_or_ends`.
* `lookupShortOpt` and `lookupLongOpt` find the option that is named, or print the message for it.
  The parser walks through all long names in their order and keeps those that begin with what is
  written, `matching`.  There is one, there is none, or there are several: `finds_or_misses`.

A counter is kept as a text.  It is read and written anew each time (`strInc_decimal`).
-/

set_option autoImplicit false

namespace DnsHive.OptParse

/-! ## Numbers -/

theorem isDigit_ten {b : UInt8} : Strtol.isDigit 10 b ↔ 48 ≤ b ∧ b ≤ 57 := by
  unfold Strtol.isDigit Strtol.digit
  simp only [UInt8.le_iff_toNat_le, UInt8.toNat_ofNat]
  split
  · simp only [Option.any_some, decide_eq_true_eq]
    omega
  split
  · simp only [Option.any_some, decide_eq_true_eq]
    omega
  split
  · simp only [Option.any_some, decide_eq_true_eq]
    omega
  · simpa using ‹¬(48 ≤ b.toNat ∧ b.toNat ≤ 57)›

theorem not_isSpace_of_digit {b : UInt8} (h : 48 ≤ b ∧ b ≤ 57) : ¬Strtol.isSpace b := by
  simp only [UInt8.le_iff_toNat_le, UInt8.toNat_ofNat] at h
  simp only [Strtol.isSpace, decide_eq_true_eq, UInt8.le_iff_toNat_le, UInt8.toNat_ofNat,
    ← UInt8.toNat_inj]
  omega

theorem sign_of_digit {b : UInt8} (h : 48 ≤ b ∧ b ≤ 57) (s : Bytes) :
    Strtol.sign (b :: s) = (1, b :: s) := by
  have h₁ : b ≠ 43 := by rintro rfl; exact absurd h.1 (by decide)
  have h₂ : b ≠ 45 := by rintro rfl; exact absurd h.1 (by decide)
  unfold Strtol.sign
  split <;> simp_all

theorem number_ten {l : Bytes} (h : ∀ b ∈ l, 48 ≤ b ∧ b ≤ 57) :
    Strtol.number 10 l = Nat.ofDigits 10 (l.reverse.map fun b ↦ b.toNat - 48) := by
  induction l using List.reverseRecOn with
  | nil => rfl
  | append_singleton l b ih =>
    have hb : Strtol.digit b = some (b.toNat - 48) := if_pos (h b (by simp))
    have hl : Strtol.number 10 (l ++ [b]) =
        Strtol.number 10 l * 10 + (Strtol.digit b).getD 0 := by simp [Strtol.number]
    rw [hl, hb, ih fun b hb ↦ h b (List.mem_append_left _ hb)]
    simp only [List.reverse_append, List.reverse_singleton, List.singleton_append, List.map_cons,
      Nat.ofDigits_cons, Option.getD_some]
    ring

section Numeral

variable {value blanks sign digits rest : Bytes} {i : Int}

/-- What the functions of the library see of a number. -/
theorem sign_numeral (h : Numeral value i blanks sign digits rest) :
    Strtol.sign (value.dropWhile Strtol.isSpace) =
      (if sign = lit "-" then -1 else 1, digits ++ rest) := by
  obtain ⟨b, t, rfl⟩ := List.exists_cons_of_ne_nil h.ne_nil
  have hb : 48 ≤ b ∧ b ≤ 57 := h.digit b List.mem_cons_self
  have hd : value.dropWhile Strtol.isSpace =
      (sign ++ (b :: t ++ rest)).dropWhile Strtol.isSpace := by
    rw [h.text, List.append_assoc, List.append_assoc, List.dropWhile_append_of_pos h.blank]
  rw [hd]
  rcases h.signed with rfl | rfl | rfl
  · rw [List.nil_append, List.cons_append, List.dropWhile_cons_of_neg (not_isSpace_of_digit hb),
      sign_of_digit hb, if_neg (by decide)]
  · rfl
  · rfl

theorem takeWhile_numeral (h : Numeral value i blanks sign digits rest) :
    (digits ++ rest).takeWhile (Strtol.isDigit 10) = digits := by
  rw [List.takeWhile_append_of_pos fun b hb ↦ isDigit_ten.2 (h.digit b hb)]
  have hr : rest.takeWhile (Strtol.isDigit 10) = [] := by
    cases rest with
    | nil => rfl
    | cons b t => exact List.takeWhile_cons_of_neg fun hb ↦ h.ends b rfl (isDigit_ten.1 hb)
  rw [hr, List.append_nil]

theorem number_numeral (h : Numeral value i blanks sign digits rest) :
    (if sign = lit "-" then -1 else 1) * (Strtol.number 10 digits : Int) = i := by
  rw [h.number, number_ten h.digit]

/-- Digits that come after blanks and a sign are a number. -/
theorem exists_numeral (hd : digits ≠ []) {s : Bytes}
    (hs : Strtol.sign (value.dropWhile Strtol.isSpace) = (i, s))
    (ht : s.takeWhile (Strtol.isDigit 10) = digits) :
    ∃ blanks sign rest, Numeral value (i * Strtol.number 10 digits) blanks sign digits rest := by
  have hdigit : ∀ b ∈ digits, 48 ≤ b ∧ b ≤ 57 := fun b hb ↦
    isDigit_ten.1 (List.mem_takeWhile_imp (ht ▸ hb))
  have hrest : ∀ b ∈ (s.dropWhile (Strtol.isDigit 10)).head?, ¬(48 ≤ b ∧ b ≤ 57) := by
    intro b hb h
    have := List.head?_dropWhile_not (Strtol.isDigit 10) s
    rw [Option.mem_def.1 hb] at this
    simp [isDigit_ten.2 h] at this
  obtain ⟨sign, hsigned, hsign, htext⟩ : ∃ sign, (sign = [] ∨ sign = lit "+" ∨ sign = lit "-") ∧
      i = (if sign = lit "-" then -1 else 1) ∧ value.dropWhile Strtol.isSpace = sign ++ s := by
    unfold Strtol.sign at hs
    split at hs
    · obtain ⟨rfl, rfl⟩ := Prod.mk.inj hs
      exact ⟨lit "+", .inr (.inl rfl), rfl, ‹_›⟩
    · obtain ⟨rfl, rfl⟩ := Prod.mk.inj hs
      exact ⟨lit "-", .inr (.inr rfl), rfl, ‹_›⟩
    · obtain ⟨rfl, rfl⟩ := Prod.mk.inj hs
      exact ⟨[], .inl rfl, rfl, rfl⟩
  refine ⟨value.takeWhile Strtol.isSpace, sign, s.dropWhile (Strtol.isDigit 10), ?_,
    fun b hb ↦ List.mem_takeWhile_imp hb, hsigned, hd, hdigit, hrest, ?_⟩
  · rw [List.append_assoc, List.append_assoc, ← ht, List.takeWhile_append_dropWhile, ← htext,
      List.takeWhile_append_dropWhile]
  · rw [hsign, number_ten hdigit]

/-- **A number is read from a value if the value begins with it and it fits.** -/
theorem extract_iff {bits : Nat} :
    extract bits value = some i ↔
      (∃ blanks sign digits rest, Numeral value i blanks sign digits rest) ∧
        -2 ^ (bits - 1) ≤ i ∧ i < 2 ^ (bits - 1) := by
  unfold extract
  constructor
  · intro h
    split at h
    rename_i sgn s hs
    dsimp only at h
    split at h
    · cases h
    · rename_i hd
      split at h
      · rename_i hb
        obtain rfl := Option.some.inj h
        obtain ⟨blanks, sign, rest, hn⟩ := exists_numeral hd hs rfl
        exact ⟨⟨blanks, sign, _, rest, hn⟩, hb⟩
      · cases h
  · rintro ⟨⟨blanks, sign, digits, rest, h⟩, hb⟩
    rw [sign_numeral h]
    dsimp only
    rw [takeWhile_numeral h]
    split
    · exact absurd rfl h.ne_nil
    · rw [number_numeral h, if_pos hb]

/-- A number that has no place in an `int` is cut at its ends. -/
theorem extractInt_numeral (h : Numeral value i blanks sign digits rest) :
    extractInt value = max (-2 ^ 31) (min (2 ^ 31 - 1) i) := by
  unfold extractInt
  rw [sign_numeral h]
  dsimp only
  rw [takeWhile_numeral h, number_numeral h]

end Numeral

theorem toNat_digit {d : Nat} (hd : d < 10) : (UInt8.ofNat (48 + d)).toNat = 48 + d := by
  rw [UInt8.toNat_ofNat']
  omega

theorem digits_ne_nil (n : Nat) : digits n ≠ [] := by
  unfold digits
  split
  · simp
  · simpa using Nat.digits_ne_nil_iff_ne_zero.2 ‹_›

/-- The digits of a number are digits. -/
theorem mem_digits {n : Nat} {b : UInt8} (hb : b ∈ digits n) : 48 ≤ b ∧ b ≤ 57 := by
  unfold digits at hb
  split at hb
  · obtain rfl := List.mem_singleton.1 hb
    exact ⟨by decide, by decide⟩
  · obtain ⟨d, hd, rfl⟩ := List.mem_map.1 hb
    have hlt : d < 10 := Nat.digits_lt_base (by omega) (List.mem_reverse.1 hd)
    simp only [UInt8.le_iff_toNat_le, toNat_digit hlt, UInt8.toNat_ofNat]
    omega

/-- The digits of a number give it back. -/
theorem ofDigits_digits (n : Nat) :
    Nat.ofDigits 10 ((digits n).reverse.map fun b ↦ b.toNat - 48) = n := by
  unfold digits
  split
  · subst n
    simp
  · have hmap : (Nat.digits 10 n).map (fun d ↦ (UInt8.ofNat (48 + d)).toNat - 48) =
        Nat.digits 10 n := by
      conv_rhs => rw [← List.map_id (Nat.digits 10 n)]
      refine List.map_congr_left fun d hd ↦ ?_
      rw [toNat_digit (Nat.digits_lt_base (by omega) hd), Nat.add_sub_cancel_left, id]
    rw [← List.map_reverse, List.reverse_reverse, List.map_map]
    exact (congrArg _ hmap).trans (Nat.ofDigits_digits 10 n)

theorem digits_numeral (n : Nat) : Numeral (digits n) n [] [] (digits n) [] := by
  refine ⟨by simp, by simp, .inl rfl, digits_ne_nil n, fun b hb ↦ mem_digits hb, by simp, ?_⟩
  rw [if_neg (by decide), ofDigits_digits, one_mul]

theorem decimal_ofNat (n : Nat) : decimal n = digits n := by
  rw [decimal, if_neg (by omega), Int.natAbs_natCast]

/-- **A counter counts**, up to the end of an `int`. -/
theorem strInc_decimal {n : Nat} (hn : n + 1 < 2 ^ 31) : strInc (decimal n) = decimal (n + 1) := by
  rw [strInc, decimal_ofNat, if_neg (digits_ne_nil n), extractInt_numeral (digits_numeral n),
    min_eq_right (by omega), max_eq_right (by omega), Int.bmod_eq_of_le (by omega) (by omega)]

theorem strInc_nil : strInc [] = decimal 1 := strInc_decimal (n := 0) (by decide)

/-! ## What an option does -/

section Process

variable {p : OptionParser} {o : Opt} {opt value : Bytes} {e : Exit}

theorem checkType_eq_nil : o.checkType opt value = [] ↔ o.Accepts value := by
  unfold Opt.checkType Opt.Accepts
  cases o.type with
  | string => simp
  | int =>
    simp only
    by_cases h : (extract 32 value).isSome
    · obtain ⟨i, hi⟩ := Option.isSome_iff_exists.1 h
      obtain ⟨⟨blanks, sign, digits, rest, hn⟩, hb⟩ := extract_iff.1 hi
      simp only [if_pos h, true_iff]
      exact ⟨i, blanks, sign, digits, rest, hn, hb⟩
    · refine iff_of_false (by simp [if_neg h, lit]) ?_
      rintro ⟨i, blanks, sign, digits, rest, hn, hb⟩
      exact h (by rw [extract_iff.2 ⟨⟨blanks, sign, digits, rest, hn⟩, hb⟩]; rfl)
  | choice =>
    simp only
    split <;> simp_all [lit]

/-- The value is assigned, and nothing else changes. -/
theorem processOpt_goesOn (h : o.GoesOn value) :
    p.processOpt o opt value = .ok { p with values := o.assign value p.values } := by
  obtain ⟨hhelp, hversion, haccepts⟩ := h
  cases ho : o.action with
  | store =>
    have hc : o.checkType opt value = [] := checkType_eq_nil.2 (haccepts (.inl ho))
    simp [OptionParser.processOpt, Opt.assign, Opt.stored, Opt.listed, ho, hc]
  | append =>
    have hc : o.checkType opt value = [] := checkType_eq_nil.2 (haccepts (.inr ho))
    simp [OptionParser.processOpt, Opt.assign, Opt.stored, Opt.listed, ho, hc]
  | help => exact absurd ho hhelp
  | version => exact absurd ho hversion
  | _ => simp [OptionParser.processOpt, Opt.assign, Opt.stored, Opt.listed, ho]

theorem processOpt_rejects (ht : o.Takes) (ha : ¬o.Accepts value) :
    p.processOpt o opt value = .error (.error (o.checkType opt value)) := by
  have hc : o.checkType opt value ≠ [] := fun hc ↦ ha (checkType_eq_nil.1 hc)
  rcases ht with ho | ho <;> simp [OptionParser.processOpt, ho, hc]

/-- The program ends as it is said. -/
theorem processOpt_ends (h : o.Ends opt value e) : p.processOpt o opt value = .error e := by
  cases h with
  | help ho => simp [OptionParser.processOpt, ho]
  | version ho => simp [OptionParser.processOpt, ho]
  | int ht htype ha =>
    have hx : ¬(extract 32 value).isSome := fun hx ↦ by
      have hc : o.checkType opt value = [] := by simp [Opt.checkType, htype, hx]
      exact ha (checkType_eq_nil.1 hc)
    rw [processOpt_rejects ht ha]
    simp [Opt.checkType, htype, hx]
  | choice ht htype ha =>
    have hx : value ∉ o.choices := by simpa [Opt.Accepts, htype] using ha
    rw [processOpt_rejects ht ha]
    simp [Opt.checkType, htype, hx, strJoin]

/-- **Every option lets the program go on or ends it.** -/
theorem goesOn_or_ends (o : Opt) (opt value : Bytes) :
    o.GoesOn value ∨ ∃ e, o.Ends opt value e := by
  by_cases hh : o.action = .help
  · exact .inr ⟨_, .help hh⟩
  by_cases hv : o.action = .version
  · exact .inr ⟨_, .version hv⟩
  by_cases ha : o.Takes → o.Accepts value
  · exact .inl ⟨hh, hv, ha⟩
  obtain ⟨ht, ha⟩ := Classical.not_imp.1 ha
  cases htype : o.type with
  | string => exact absurd (by simp [Opt.Accepts, htype]) ha
  | int => exact .inr ⟨_, .int ht htype ha⟩
  | choice => exact .inr ⟨_, .choice ht htype ha⟩

end Process

/-! ## Names -/

instance : Std.Antisymm fun x y : Bytes ↦ compare x y = .lt where
  antisymm x y hxy hyx := by
    have hswap : compare x y = (compare y x).swap := Std.OrientedCmp.eq_swap
    rw [hyx, hxy] at hswap
    cases hswap

instance : Std.Irrefl fun x y : Bytes ↦ compare x y = .lt where
  irrefl x := by simp

/-- The long names that begin with what is written. -/
def matching (p : OptionParser) (name : Bytes) : List (Bytes × Opt) :=
  p.optmapL.toList.filter fun kv ↦ name.isPrefixOf kv.1

section Names

variable {p : OptionParser} {c : UInt8} {name : Bytes} {s : Spelling} {o : Opt} {msg : Bytes}

theorem mem_matching {full : Bytes} :
    (full, o) ∈ matching p name ↔ p.optmapL[full]? = some o ∧ name <+: full := by
  simp [matching, Std.TreeMap.mem_toList_iff_getElem?_eq_some]

theorem mem_matching_names {full : Bytes} :
    full ∈ (matching p name).map (·.1) ↔ full ∈ p.optmapL ∧ name <+: full := by
  rw [Std.TreeMap.mem_iff_isSome_getElem?, Option.isSome_iff_exists, ← exists_and_right]
  simp only [← mem_matching, List.mem_map, Prod.exists, exists_and_right, exists_eq_right]

theorem pairwise_matching :
    ((matching p name).map (·.1)).Pairwise fun x y ↦ compare x y = .lt :=
  List.pairwise_map.2 (Std.TreeMap.ordered_keys_toList.filter _)

theorem lookupLongOpt_eq : p.lookupLongOpt name =
    match matching p name with
    | [] => .error (.error (lit "no such option: --" ++ name))
    | [(_, o)] => .ok o
    | m => .error (.error (lit "ambiguous option: --" ++ name ++ lit " ("
        ++ strJoin (lit ", ") (m.map (·.1)) ++ lit "?)")) := rfl

theorem lookupShortOpt_finds (h : (Form.short c s).Finds p o) :
    p.lookupShortOpt [c] = .ok o := by
  cases h with
  | short ho => rw [OptionParser.lookupShortOpt, ho]

theorem lookupShortOpt_misses (h : (Form.short c s).Misses p msg) :
    p.lookupShortOpt [c] = .error (.error msg) := by
  cases h with
  | short hc => rw [OptionParser.lookupShortOpt, Std.TreeMap.getElem?_eq_none hc]

theorem lookupLongOpt_finds (h : (Form.long name s).Finds p o) :
    p.lookupLongOpt name = .ok o := by
  cases h with
  | @long _ full _ _ ho hfull hone =>
    have hmem : (full, o) ∈ matching p name := mem_matching.2 ⟨ho, hfull⟩
    have hnames : (matching p name).map (·.1) = [full] := by
      refine pairwise_matching.eq_of_mem_iff (List.pairwise_singleton ..) fun other ↦ ?_
      rw [mem_matching_names, List.mem_singleton]
      refine ⟨fun h ↦ hone other h.1 h.2, ?_⟩
      rintro rfl
      exact mem_matching_names.1 (List.mem_map_of_mem hmem)
    obtain ⟨x, hx⟩ := List.length_eq_one_iff.1 (by simpa using congrArg List.length hnames)
    obtain rfl : (full, o) = x := by simpa [hx] using hmem
    rw [lookupLongOpt_eq, hx]

theorem lookupLongOpt_misses (h : (Form.long name s).Misses p msg) :
    p.lookupLongOpt name = .error (.error msg) := by
  rw [lookupLongOpt_eq]
  cases h with
  | long hnone =>
    have hm : matching p name = [] := List.eq_nil_iff_forall_not_mem.2 fun x hx ↦
      have ⟨hmem, hfull⟩ := mem_matching_names.1 (List.mem_map_of_mem hx)
      hnone _ hmem hfull
    rw [hm]
  | @ambiguous _ _ names hsorted hlen hnames =>
    obtain rfl : names = (matching p name).map (·.1) :=
      hsorted.eq_of_mem_iff pairwise_matching fun full ↦
        (hnames full).trans mem_matching_names.symm
    match hm : matching p name with
    | [] | [_] => simp [hm] at hlen
    | _ :: _ :: _ => rfl

/-- **Every name names one option, or none, or several.** -/
theorem finds_or_misses (p : OptionParser) (f : Form) :
    (∃ o, f.Finds p o) ∨ ∃ msg, f.Misses p msg := by
  cases f with
  | short c s =>
    cases h : p.optmapS[[c]]? with
    | none => exact .inr ⟨_, .short fun hc ↦ by simp [Std.TreeMap.mem_iff_isSome_getElem?, h] at hc⟩
    | some o => exact .inl ⟨o, .short h⟩
  | long name s =>
    match hm : matching p name with
    | [] =>
      refine .inr ⟨_, .long fun full hmem hfull ↦ ?_⟩
      have := mem_matching_names.2 ⟨hmem, hfull⟩
      simp [hm] at this
    | [(full, o)] =>
      obtain ⟨ho, hfull⟩ := mem_matching.1 (hm ▸ List.mem_singleton_self _)
      refine .inl ⟨o, .long ho hfull fun other hmem hother ↦ ?_⟩
      have := mem_matching_names.2 ⟨hmem, hother⟩
      simpa [hm] using this
    | _ :: _ :: _ =>
      refine .inr ⟨_, .ambiguous pairwise_matching ?_ fun full ↦ mem_matching_names⟩
      simp [hm]

end Names

end DnsHive.OptParse
