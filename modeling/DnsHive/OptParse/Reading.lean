import DnsHive.OptParse.Meaning

/-!
# The parser reads command lines

* `parseLoop_args`: the parser understands every command line as it is meant.
* `exists_args`: every list of arguments is a command line.
* `parseLoop_iff` puts the two together: this is what the parser returns, and there is nothing else.

One turn of the loop is said by what comes next: `parseLoop_form` for an option that is found,
`parseLoop_stops` for one that ends the program, `parseLoop_flag` for one that shares its argument.
-/

set_option autoImplicit false

namespace DnsHive.OptParse

/-- What stands after the `=` of a long option. -/
def Spelling.delim : Spelling → Option Bytes
  | .attached value => some value
  | _ => none

namespace OptionParser

theorem after_nil {p : OptionParser} {r : List Bytes} (h : p.remaining = r) :
    p.after [] [] r = p := by
  simp [after, Values.after, ← h]

theorem after_after (p : OptionParser) (us us' : List Use) (ws ws' r r' : List Bytes) :
    (p.after us ws r).after us' ws' r' = p.after (us ++ us') (ws ++ ws') r' := by
  simp [after, Values.after]

/-! ## The loop, by what comes next -/

theorem lit_dash : lit "-" = [45] := rfl

theorem lit_dashes : lit "--" = [45, 45] := rfl

variable {p : OptionParser}

theorem parseLoop_nil (h : p.remaining = []) : p.parseLoop = .ok p := by
  rw [parseLoop]
  split
  · rfl
  · simp_all

theorem parseLoop_dashes {rest : List Bytes} (h : p.remaining = [45, 45] :: rest) :
    p.parseLoop = .ok p.popFront := by
  rw [parseLoop]
  split
  · simp_all
  · rename_i arg _ h'
    obtain ⟨rfl, -⟩ : arg = [45, 45] ∧ _ := by simpa [h] using h'.symm
    rw [if_pos lit_dashes.symm]

theorem parseLoop_long {s : Bytes} {rest : List Bytes} (hs : s ≠ [])
    (h : p.remaining = (45 :: 45 :: s) :: rest) :
    p.parseLoop = (p.handleLongOpt s).bind parseLoop := by
  rw [parseLoop]
  split
  · simp_all
  · rename_i arg _ h'
    obtain ⟨rfl, -⟩ : arg = 45 :: 45 :: s ∧ _ := by simpa [h] using h'.symm
    rw [if_neg (by simpa [lit_dashes] using hs), if_pos (by simp [lit_dashes])]
    split <;> simp_all [Except.bind]

theorem parseLoop_short {c : UInt8} {s : Bytes} {rest : List Bytes} (hc : c ≠ 45)
    (h : p.remaining = (45 :: c :: s) :: rest) :
    p.parseLoop = (p.handleShortOpt [c] (45 :: c :: s)).bind parseLoop := by
  rw [parseLoop]
  split
  · simp_all
  · rename_i arg _ h'
    obtain ⟨rfl, -⟩ : arg = 45 :: c :: s ∧ _ := by simpa [h] using h'.symm
    rw [if_neg (by simp [lit_dashes, hc]), if_neg (by simp [lit_dashes, hc]),
      if_pos (by simp [lit_dash])]
    split <;> simp_all [Except.bind]

theorem parseLoop_word {w : Bytes} {rest : List Bytes} (hw : Plain w)
    (h : p.remaining = w :: rest) :
    p.parseLoop =
      if p.interspersedArgs then (p.after [] [w] rest).parseLoop
      else .ok (p.after [] [w] rest) := by
  have ht : w.take 2 ≠ [45, 45] ∧ ¬(w.take 1 = [45] ∧ 1 < w.length) := by
    match w, hw with
    | [], _ => simp
    | [_], _ => simp
    | c :: d :: s, hw =>
      have : c ≠ 45 := fun hc ↦ hw d s (by rw [hc])
      simp [this]
  have hp : { p.popFront with leftover := p.leftover ++ [w] } = p.after [] [w] rest := by
    simp [after, popFront, Values.after, h]
  rw [parseLoop]
  split
  · simp_all
  · rename_i arg _ h'
    obtain ⟨rfl, -⟩ : arg = w ∧ _ := by simpa [h] using h'.symm
    rw [if_neg (fun hc ↦ ht.1 (by rw [hc]; rfl)), lit_dashes, lit_dash, if_neg ht.1, if_neg ht.2,
      hp]

/-! ## Options -/

/-- What becomes of an option once it is found. -/
def goOn (p : OptionParser) (o : Opt) (opt value : Bytes) (remaining : List Bytes) :
    Except Exit OptionParser :=
  ({ p with remaining }.processOpt o opt value).bind parseLoop

theorem goOn_goesOn {o : Opt} {opt value : Bytes} {remaining : List Bytes} (h : o.GoesOn value) :
    p.goOn o opt value remaining = (p.after [⟨o, value⟩] [] remaining).parseLoop := by
  rw [goOn, processOpt_goesOn h]
  simp [Except.bind, after, Values.after]

theorem goOn_ends {o : Opt} {opt value : Bytes} {remaining : List Bytes} {e : Exit}
    (h : o.Ends opt value e) : p.goOn o opt value remaining = .error e := by
  rw [goOn, processOpt_ends h]
  rfl

theorem processOpt_bind {q : OptionParser} {o : Opt} (opt value : Bytes) {remaining : List Bytes}
    (hq : q = { p with remaining }) :
    (q.processOpt o opt value).bind parseLoop = p.goOn o opt value remaining := by
  subst hq
  rfl

/-- An option without a value that shares its argument. -/
theorem parseLoop_flag {c b : UInt8} {s : Bytes} {o : Opt} {rest : List Bytes}
    (hm : (Form.short c .alone).Means p o) (hr : p.remaining = (45 :: c :: b :: s) :: rest) :
    p.parseLoop = p.goOn o (lit "-" ++ [c]) [] ((45 :: b :: s) :: rest) := by
  have hl : p.popFront.lookupShortOpt [c] = .ok o := lookupShortOpt_finds (p := p) hm.found
  have hn : o.nargs ≠ 1 := hm.spelled
  rw [parseLoop_short hm.named hr]
  simp only [handleShortOpt, hl, if_neg hn, List.length_cons]
  rw [if_pos (by omega)]
  exact processOpt_bind _ _ (by simp [pushFront, popFront, hr, lit_dash])

theorem splitDelim_alone {name : Bytes} (h : 61 ∉ name) : splitDelim name = (name, none) := by
  have hne : ∀ c ∈ name, c ≠ 61 := fun c hc he ↦ h (he ▸ hc)
  have ht : name.takeWhile (· ≠ 61) = name :=
    List.takeWhile_eq_self_iff.2 fun c hc ↦ by simpa using hne c hc
  have hd : name.dropWhile (· ≠ 61) = [] :=
    List.dropWhile_eq_nil_iff.2 fun c hc ↦ by simpa using hne c hc
  rw [splitDelim, ht, hd]
  rfl

theorem splitDelim_attached {name : Bytes} (h : 61 ∉ name) (value : Bytes) :
    splitDelim (name ++ 61 :: value) = (name, some value) := by
  have hne : ∀ c ∈ name, decide (c ≠ 61) = true := fun c hc ↦ by
    simpa using fun he : c = 61 ↦ h (he ▸ hc)
  rw [splitDelim, List.takeWhile_append_of_pos hne, List.dropWhile_append_of_pos hne]
  simp

section Long

variable {name optstr : Bytes} {s : Spelling} {o : Opt} {rest : List Bytes}

theorem parseLoop_written (named : (Form.long name s).Named)
    (hr : p.remaining = (45 :: (Form.long name s).first) :: rest) :
    ∃ optstr, splitDelim optstr = (name, s.delim) ∧
      p.parseLoop = (p.handleLongOpt optstr).bind parseLoop := by
  obtain ⟨hd, hne⟩ := named
  cases s with
  | alone =>
    have hs : name ≠ [] := fun h ↦ by simpa using hne h
    exact ⟨name, splitDelim_alone hd, parseLoop_long hs hr⟩
  | attached value => exact ⟨_, splitDelim_attached hd value, parseLoop_long (by simp) hr⟩
  | separate value =>
    have hs : name ≠ [] := fun h ↦ by simpa using hne h
    exact ⟨name, splitDelim_alone hd, parseLoop_long hs hr⟩

theorem handleLongOpt_found {value : Bytes} {delim : Option Bytes} {q : OptionParser}
    (hd : splitDelim optstr = (name, delim)) (hl : p.popFront.lookupLongOpt name = .ok o)
    (hv : p.popFront.longValue o delim = (q, value)) :
    p.handleLongOpt optstr =
      if o.nargs = 1 ∧ value = [] then
        .error (.error (lit "--" ++ name ++ lit " option requires an argument"))
      else q.processOpt o (lit "--" ++ name) value := by
  simp only [handleLongOpt, hd, hl, hv]

/-- The value is taken from where it is. -/
theorem longValue_spelled (spelled : (Form.long name s).Spelled o.nargs) {arg : Bytes}
    (hr : p.remaining = arg :: ((Form.long name s).following ++ rest)) :
    p.popFront.longValue o s.delim =
      ({ p with remaining := rest }, (Form.long name s).value) := by
  cases s with
  | alone =>
    have hn : o.nargs ≠ 1 := spelled
    simp [longValue, Spelling.delim, hn, popFront, hr, Form.following, Form.value]
  | attached value =>
    simp [longValue, Spelling.delim, popFront, hr, Form.following, Form.value]
  | separate value =>
    obtain ⟨hn, -⟩ : o.nargs = 1 ∧ value ≠ [] := spelled
    simp [longValue, Spelling.delim, hn, popFront, hr, Form.following, Form.value]

theorem not_missing (spelled : (Form.long name s).Spelled o.nargs) :
    ¬(o.nargs = 1 ∧ (Form.long name s).value = []) := by
  rintro ⟨hn, hv⟩
  cases s with
  | alone => exact spelled hn
  | attached value => exact spelled hn hv
  | separate value => exact spelled.2 hv

/-- No value is found. -/
theorem longValue_bare (bare : (Form.long name s).Bare rest) (nargs : o.nargs = 1) {arg : Bytes}
    (hr : p.remaining = arg :: ((Form.long name s).following ++ rest)) :
    ∃ q, p.popFront.longValue o s.delim = (q, []) := by
  cases s with
  | alone =>
    obtain rfl : rest = [] := bare
    simp [longValue, Spelling.delim, nargs, popFront, hr, Form.following]
  | attached value =>
    obtain rfl : value = [] := bare
    simp [longValue, Spelling.delim]
  | separate value =>
    obtain rfl : value = [] := bare
    simp [longValue, Spelling.delim, nargs, popFront, hr, Form.following]

end Long

/-- An option as it is written. -/
theorem parseLoop_form {f : Form} {o : Opt} {rest : List Bytes} (hm : f.Means p o)
    (hr : p.remaining = (45 :: f.first) :: (f.following ++ rest)) :
    p.parseLoop = p.goOn o f.opt f.value rest := by
  obtain ⟨named, found, spelled⟩ := hm
  cases f with
  | short c s =>
    have hl : p.popFront.lookupShortOpt [c] = .ok o := lookupShortOpt_finds (p := p) found
    cases s with
    | alone =>
      have hn : o.nargs ≠ 1 := spelled
      rw [parseLoop_short named hr]
      simp only [handleShortOpt, hl, if_neg hn]
      rw [if_neg (by simp)]
      exact processOpt_bind _ _ (by simp [popFront, hr, Form.following])
    | attached value =>
      obtain ⟨hn, hv⟩ : o.nargs = 1 ∧ value ≠ [] := spelled
      rw [parseLoop_short named hr]
      simp only [handleShortOpt, hl, if_pos hn]
      rw [if_neg (by simpa using hv)]
      exact processOpt_bind _ _ (by simp [popFront, hr, Form.following])
    | separate value =>
      have hn : o.nargs = 1 := spelled
      have hp : p.popFront.remaining = value :: rest := by simp [popFront, hr, Form.following]
      rw [parseLoop_short named hr]
      simp only [handleShortOpt, hl, if_pos hn, hp]
      rw [if_pos (by simp)]
      exact processOpt_bind _ _ (by simp [popFront, hr, Form.following])
  | long name s =>
    have hl : p.popFront.lookupLongOpt name = .ok o := lookupLongOpt_finds (p := p) found
    obtain ⟨optstr, hd, hp⟩ := parseLoop_written named hr
    rw [hp, handleLongOpt_found hd hl (longValue_spelled spelled hr), if_neg (not_missing spelled)]
    exact processOpt_bind _ _ rfl

theorem parseLoop_unknown {f : Form} {msg : Bytes} {rest : List Bytes} (named : f.Named)
    (misses : f.Misses p msg) (hr : p.remaining = (45 :: f.first) :: rest) :
    p.parseLoop = .error (.error msg) := by
  cases f with
  | short c s =>
    have hl : p.popFront.lookupShortOpt [c] = .error (.error msg) :=
      lookupShortOpt_misses (p := p) misses
    obtain ⟨t, ht⟩ : ∃ t, (Form.short c s).first = c :: t := by cases s <;> exact ⟨_, rfl⟩
    rw [parseLoop_short named (ht ▸ hr)]
    simp only [handleShortOpt, hl, Except.bind]
  | long name s =>
    have hl : p.popFront.lookupLongOpt name = .error (.error msg) :=
      lookupLongOpt_misses (p := p) misses
    obtain ⟨optstr, hd, hp⟩ := parseLoop_written named hr
    rw [hp]
    simp only [handleLongOpt, hd, hl, Except.bind]

theorem parseLoop_missing {f : Form} {o : Opt} {rest : List Bytes} (named : f.Named)
    (found : f.Finds p o) (nargs : o.nargs = 1) (bare : f.Bare rest)
    (hr : p.remaining = (45 :: f.first) :: (f.following ++ rest)) :
    p.parseLoop = .error (.error (f.opt ++ lit " option requires an argument")) := by
  cases f with
  | short c s =>
    have hl : p.popFront.lookupShortOpt [c] = .ok o := lookupShortOpt_finds (p := p) found
    cases s with
    | alone =>
      obtain rfl : rest = [] := bare
      have hp : p.popFront.remaining = [] := by simp [popFront, hr, Form.following]
      rw [parseLoop_short named hr]
      simp only [handleShortOpt, hl, if_pos nargs, hp]
      rw [if_pos (by simp)]
      rfl
    | attached value => exact bare.elim
    | separate value => exact bare.elim
  | long name s =>
    have hl : p.popFront.lookupLongOpt name = .ok o := lookupLongOpt_finds (p := p) found
    obtain ⟨optstr, hd, hp⟩ := parseLoop_written named hr
    obtain ⟨q, hv⟩ := longValue_bare bare nargs hr
    rw [hp, handleLongOpt_found hd hl hv, if_pos ⟨nargs, rfl⟩]
    rfl

/-- The program ends at such an option. -/
theorem parseLoop_stops {f : Form} {e : Exit} {rest : List Bytes} (hs : f.Stops p rest e)
    (hr : p.remaining = (45 :: f.first) :: (f.following ++ rest)) : p.parseLoop = .error e := by
  cases hs with
  | unknown named first misses => exact parseLoop_unknown named misses hr
  | missing named found nargs bare => exact parseLoop_missing named found nargs bare hr
  | ends means ends => rw [parseLoop_form means hr, goOn_ends ends]
  | @flag c s o _ means ends =>
    cases s with
    | nil =>
      have hr' : p.remaining = (45 :: (Form.short c .alone).first) :: ([] ++ rest) := hr
      exact (parseLoop_form means hr').trans (goOn_ends ends)
    | cons b s => rw [parseLoop_flag means hr, goOn_ends ends]

/-! ## A whole command line -/

theorem parseLoop_passes {f : Form} {o : Opt} {rest : List Bytes} (hf : f.Passes p o)
    (hr : p.remaining = (45 :: f.first) :: (f.following ++ rest)) :
    p.parseLoop = (p.after [⟨o, f.value⟩] [] rest).parseLoop := by
  rw [parseLoop_form hf.toMeans hr, goOn_goesOn hf.goes_on]

theorem parseLoop_flags {flags : Flags} {s : Bytes} {rest : List Bytes} (hs : s ≠ [])
    (hf : flags.Pass p) (hr : p.remaining = (45 :: (flags.text ++ s)) :: rest) :
    p.parseLoop = (p.after flags.uses [] ((45 :: s) :: rest)).parseLoop := by
  induction flags generalizing p with
  | nil => exact congrArg parseLoop (after_nil hr).symm
  | cons x flags ih =>
    obtain ⟨c, o⟩ := x
    have hx : (Form.short c .alone).Passes p o := hf _ List.mem_cons_self
    obtain ⟨b, t, ht⟩ : ∃ b t, Flags.text flags ++ s = b :: t :=
      List.exists_cons_of_ne_nil (by simp [hs])
    have hr' : p.remaining = (45 :: c :: b :: t) :: rest := by rw [hr, ← ht]; rfl
    have hg : o.GoesOn [] := hx.goes_on
    rw [parseLoop_flag hx.toMeans hr', goOn_goesOn hg, ← ht,
      ih (flags_same (sameOptions_after ..) fun y hy ↦ hf y (List.mem_cons_of_mem _ hy)) rfl,
      after_after]
    rfl

theorem parseLoop_item {x : Item} {rest : List Bytes} (hx : x.Fits p)
    (hr : p.remaining = x.args ++ rest) :
    p.parseLoop = (p.after x.uses x.words rest).parseLoop := by
  cases x with
  | word w => rw [parseLoop_word hx.1 hr, if_pos hx.2]; rfl
  | option flags form o =>
    have hs : form.first ≠ [] := form.first_ne_nil
    have hr' : p.remaining =
        (45 :: (flags.text ++ form.first)) :: (form.following ++ rest) := hr
    rw [parseLoop_flags hs hx.1 hr', parseLoop_passes (passes_same (sameOptions_after ..) hx.2) rfl,
      after_after]
    rfl

theorem parseLoop_items {items : List Item} {rest : List Bytes} (hx : ∀ x ∈ items, x.Fits p)
    (hr : p.remaining = items.flatMap Item.args ++ rest) :
    p.parseLoop =
      (p.after (items.flatMap Item.uses) (items.flatMap Item.words) rest).parseLoop := by
  induction items generalizing p with
  | nil => exact congrArg parseLoop (after_nil hr).symm
  | cons x items ih =>
    have hr' : p.remaining = x.args ++ (items.flatMap Item.args ++ rest) := by simpa using hr
    rw [parseLoop_item (hx x List.mem_cons_self) hr',
      ih (fun y hy ↦ item_same (sameOptions_after ..) (hx y (List.mem_cons_of_mem _ hy))) rfl,
      after_after]
    rfl

theorem parseLoop_ending {e : Ending} (he : e.Fits p) (hr : p.remaining = e.args) :
    p.parseLoop.map drain =
      match e.exit? with
      | some e => .error e
      | none => .ok (p.after e.uses e.words []) := by
  cases e with
  | nothing =>
    rw [parseLoop_nil hr]
    simp [Except.map, drain, after, Values.after, hr, Ending.args, Ending.uses, Ending.words,
      Ending.exit?]
  | dashes flags rest =>
    rw [parseLoop_flags (by simp) he hr, parseLoop_dashes rfl]
    simp [Except.map, drain, popFront, after, Ending.uses, Ending.words, Ending.exit?]
  | word w rest =>
    rw [parseLoop_word he.1 hr, if_neg he.2]
    simp [Except.map, drain, after, Values.after, Ending.uses, Ending.words, Ending.exit?]
  | exit flags form rest e =>
    have hs : form.first ≠ [] := form.first_ne_nil
    rw [parseLoop_flags hs he.1 hr, parseLoop_stops (stops_same (sameOptions_after ..) he.2) rfl]
    rfl

end OptionParser

namespace CommandLine

variable {p : OptionParser}

/-- **The parser understands every command line as it is meant.** -/
theorem parseLoop_args (l : CommandLine p) (hr : p.remaining = l.args) :
    p.parseLoop.map OptionParser.drain = l.result p := by
  have he : l.ending.Fits (p.after (l.items.flatMap Item.uses) (l.items.flatMap Item.words)
      l.ending.args) := ending_same (sameOptions_after ..) l.ending_fits
  rw [OptionParser.parseLoop_items l.items_fit hr, OptionParser.parseLoop_ending he rfl, result]
  cases l.ending.exit? with
  | some e => rfl
  | none => exact congrArg Except.ok (OptionParser.after_after ..)

/-! ## Every list of arguments -/

theorem exists_item {l : CommandLine p} {x : Item} (hx : x.Fits p) :
    ∃ l' : CommandLine p, l'.args = x.args ++ l.args :=
  ⟨⟨x :: l.items, l.ending, List.forall_mem_cons.2 ⟨hx, l.items_fit⟩, l.ending_fits⟩,
    by simp [args]⟩

theorem exists_ending {e : Ending} (he : e.Fits p) : ∃ l : CommandLine p, l.args = e.args :=
  ⟨⟨[], e, by simp, he⟩, rfl⟩

/-- One more flag, before what starts with a dash. -/
theorem exists_flag {l : CommandLine p} {c b : UInt8} {s : Bytes} {rest : List Bytes} {o : Opt}
    (hf : (Form.short c .alone).Passes p o) (hl : l.args = (45 :: b :: s) :: rest) :
    ∃ l : CommandLine p, l.args = (45 :: c :: b :: s) :: rest := by
  have hp {flags : Flags} (h : flags.Pass p) : Flags.Pass p ((c, o) :: flags) :=
    List.forall_mem_cons.2 ⟨hf, h⟩
  obtain ⟨items, ending, hi, he⟩ := l
  cases items with
  | cons x items =>
    obtain ⟨hx, hi'⟩ := List.forall_mem_cons.1 hi
    cases x with
    | word w =>
      obtain ⟨rfl, -⟩ := List.cons.inj hl
      exact absurd rfl (hx.1 b s)
    | option flags form o' =>
      obtain ⟨hs, hr⟩ := List.cons.inj hl
      obtain ⟨-, hs⟩ := List.cons.inj hs
      have hx' : (Item.option ((c, o) :: flags) form o').Fits p := ⟨hp hx.1, hx.2⟩
      refine ⟨⟨_ :: items, ending, List.forall_mem_cons.2 ⟨hx', hi'⟩, he⟩, ?_⟩
      rw [← hs, ← hr]
      rfl
  | nil =>
    cases ending with
    | nothing => cases hl
    | dashes flags rest =>
      obtain ⟨hs, rfl⟩ := List.cons.inj hl
      obtain ⟨-, hs⟩ := List.cons.inj hs
      exact ⟨⟨[], .dashes ((c, o) :: flags) rest, hi, hp he⟩, by rw [← hs]; rfl⟩
    | word w rest =>
      obtain ⟨rfl, -⟩ := List.cons.inj hl
      exact absurd rfl (he.1 b s)
    | exit flags form rest e =>
      obtain ⟨hs, rfl⟩ := List.cons.inj hl
      obtain ⟨-, hs⟩ := List.cons.inj hs
      exact ⟨⟨[], .exit ((c, o) :: flags) form rest e, hi, hp he.1, he.2⟩, by rw [← hs]; rfl⟩

theorem exists_stop {f : Form} {rest : List Bytes} {e : Exit} (h : f.Stops p rest e) :
    ∃ l : CommandLine p, l.args = (45 :: f.first) :: (f.following ++ rest) :=
  exists_ending (e := .exit [] f rest e) ⟨List.forall_mem_nil _, h⟩

/-- An option that is found and well written. -/
theorem exists_means {f : Form} {o : Opt} {rest : List Bytes} (h : f.Means p o)
    (hl : ∃ l : CommandLine p, l.args = rest) :
    ∃ l : CommandLine p, l.args = (45 :: f.first) :: (f.following ++ rest) := by
  rcases goesOn_or_ends o f.opt f.value with hg | ⟨e, he⟩
  · obtain ⟨l, rfl⟩ := hl
    have hx : (Item.option [] f o).Fits p := ⟨List.forall_mem_nil _, ⟨h, hg⟩⟩
    exact exists_item hx
  · exact exists_stop (.ends h he)

theorem exists_long {s : Bytes} {rest : List Bytes} (hs : s ≠ [])
    (ih : ∀ r, r <:+ rest → ∃ l : CommandLine p, l.args = r) :
    ∃ l : CommandLine p, l.args = (45 :: 45 :: s) :: rest := by
  by_cases hd : 61 ∈ s
  · obtain ⟨name, value, rfl, hm⟩ := List.eq_append_cons_of_mem hd
    let f := Form.long name (.attached value)
    have hn : f.Named := ⟨hm, fun _ ↦ ⟨value, rfl⟩⟩
    rcases finds_or_misses p f with ⟨o, hf⟩ | ⟨msg, hf⟩
    · by_cases hv : o.nargs = 1 ∧ value = []
      · exact exists_stop (f := f) (.missing hn hf hv.1 hv.2)
      · exact exists_means (f := f) ⟨hn, hf, fun h h' ↦ hv ⟨h, h'⟩⟩ (ih rest List.suffix_rfl)
    · exact exists_stop (f := f) (.unknown hn rfl hf)
  · have hn (sp : Spelling) : (Form.long s sp).Named := ⟨hd, fun h ↦ absurd h hs⟩
    rcases finds_or_misses p (.long s .alone) with ⟨o, hf⟩ | ⟨msg, hf⟩
    · by_cases ho : o.nargs = 1
      · match rest, ih with
        | [], _ => exact exists_stop (f := .long s .alone) (.missing (hn _) hf ho rfl)
        | value :: rest, ih =>
          have hf' : (Form.long s (.separate value)).Finds p o := hf.respell _
          by_cases hv : value = []
          · exact exists_stop (f := .long s (.separate value)) (.missing (hn _) hf' ho hv)
          · exact exists_means (f := .long s (.separate value)) ⟨hn _, hf', ho, hv⟩
              (ih rest (List.suffix_cons _ _))
      · exact exists_means (f := .long s .alone) ⟨hn _, hf, ho⟩ (ih rest List.suffix_rfl)
    · exact exists_stop (f := .long s .alone) (.unknown (hn _) rfl hf)

theorem exists_short {c : UInt8} {s : Bytes} {rest : List Bytes} (hc : c ≠ 45)
    (ih : ∀ r, r <:+ rest → ∃ l : CommandLine p, l.args = r)
    (ih' : ∃ l : CommandLine p, l.args = (45 :: s) :: rest) :
    ∃ l : CommandLine p, l.args = (45 :: c :: s) :: rest := by
  rcases finds_or_misses p (.short c (.attached s)) with ⟨o, hf⟩ | ⟨msg, hf⟩
  · by_cases ho : o.nargs = 1
    · by_cases hs : s = []
      · subst hs
        match rest, ih with
        | [], _ => exact exists_stop (f := .short c .alone) (.missing hc (hf.respell _) ho rfl)
        | value :: rest, ih =>
          exact exists_means (f := .short c (.separate value)) ⟨hc, hf.respell _, ho⟩
            (ih rest (List.suffix_cons _ _))
      · exact exists_means (f := .short c (.attached s)) ⟨hc, hf, ho, hs⟩ (ih rest List.suffix_rfl)
    · have hm : (Form.short c .alone).Means p o := ⟨hc, hf.respell _, ho⟩
      rcases goesOn_or_ends o (lit "-" ++ [c]) [] with hg | ⟨e, he⟩
      · match s, ih' with
        | [], _ => exact exists_means hm (ih rest List.suffix_rfl)
        | b :: s, ⟨l, hl⟩ => exact exists_flag ⟨hm, hg⟩ hl
      · exact exists_stop (f := .short c (.attached s)) (.flag hm he)
  · exact exists_stop (f := .short c (.attached s)) (.unknown hc rfl hf)

/-- **Every list of arguments is a command line.** -/
theorem exists_args (p : OptionParser) (args : List Bytes) :
    ∃ l : CommandLine p, l.args = args := by
  obtain ⟨n, hn⟩ : ∃ n, weight args < n := ⟨_, Nat.lt_succ_self _⟩
  induction n generalizing args with
  | zero => exact absurd hn (Nat.not_lt_zero _)
  | succ n ih =>
    match args with
    | [] => exact exists_ending (e := .nothing) trivial
    | arg :: rest =>
      rw [weight_cons] at hn
      have ih' (r : List Bytes) (hr : r <:+ rest) : ∃ l : CommandLine p, l.args = r :=
        ih r (by have := weight_le hr; omega)
      by_cases hw : Plain arg
      · by_cases hp : p.interspersedArgs
        · obtain ⟨l, hl⟩ := ih' rest List.suffix_rfl
          obtain ⟨l', hl'⟩ := exists_item (l := l) (x := .word arg) ⟨hw, hp⟩
          exact ⟨l', by rw [hl', hl]; rfl⟩
        · exact exists_ending (e := .word arg rest) ⟨hw, hp⟩
      · obtain ⟨c, s, rfl⟩ : ∃ c s, arg = 45 :: c :: s := by simpa [Plain] using hw
        by_cases hc : c = 45
        · subst hc
          by_cases hs : s = []
          · subst hs
            exact exists_ending (e := .dashes [] rest) (List.forall_mem_nil _)
          · exact exists_long hs ih'
        · refine exists_short hc ih' (ih _ ?_)
          rw [weight_cons]
          simp only [List.length_cons] at hn ⊢
          omega

/-- **What the parser returns is what the command line says.** -/
theorem parseLoop_iff {r : Except Exit OptionParser} :
    p.parseLoop.map OptionParser.drain = r ↔
      ∃ l : CommandLine p, l.args = p.remaining ∧ l.result p = r := by
  constructor
  · rintro rfl
    obtain ⟨l, hl⟩ := exists_args p p.remaining
    exact ⟨l, hl, (parseLoop_args l hl.symm).symm⟩
  · rintro ⟨l, hl, rfl⟩
    exact parseLoop_args l hl.symm

end CommandLine

end DnsHive.OptParse
