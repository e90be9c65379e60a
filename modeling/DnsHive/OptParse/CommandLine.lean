import DnsHive.OptParse.Basic

/-!
# Command lines

What the arguments of a program say, without the parser: a `CommandLine` is a list of options as
they are written (`Form`) and of other words, and an end.  The end is that of the arguments, or
everything after `--`, or an option that ends the program.  `CommandLine.args` is the text of a
command line, and `CommandLine.result` what it says.

Nothing here is said with the functions of the parser.

* What a name stands for is `Form.Finds`, in terms of the names in the maps: a letter has to be one
  of them, and a long name has to be the beginning of exactly one.  `Form.Misses` has the messages
  for a name that is the beginning of none, or of several.
* Which values an option takes is `Opt.Accepts`, where a number is what its digits say (`Numeral`).
  `Opt.GoesOn` and `Opt.Ends` tell if the program goes on after the option, and with what message it
  ends there if it does not.
* What is left in the values is `Opt.assign`: a value that is stored, and one that is appended to a
  list.

Options without a value can share an argument with what comes after them.  The rest of such an
argument is read again, with a dash before it: `-q-` is `-q` and `--`.
-/

set_option autoImplicit false

namespace DnsHive.OptParse

/-! ## What an option does -/

/-- The value begins with this number: there may be blanks before it, and anything but a digit after
it. -/
structure Numeral (value : Bytes) (i : Int) (blanks sign digits rest : Bytes) : Prop where
  text : value = blanks ++ sign ++ digits ++ rest
  blank : ∀ b ∈ blanks, Strtol.isSpace b
  signed : sign = [] ∨ sign = lit "+" ∨ sign = lit "-"
  ne_nil : digits ≠ []
  digit : ∀ b ∈ digits, 48 ≤ b ∧ b ≤ 57
  ends : ∀ b ∈ rest.head?, ¬(48 ≤ b ∧ b ≤ 57)
  number : i = (if sign = lit "-" then -1 else 1) *
    (Nat.ofDigits 10 (digits.reverse.map fun b ↦ b.toNat - 48) : Nat)

namespace Opt

/-- It is given a value that counts. -/
def Takes (o : Opt) : Prop := o.action = .store ∨ o.action = .append

/-- The value is of the type of the option. -/
def Accepts (o : Opt) (value : Bytes) : Prop :=
  match o.type with
  | .string => True
  | .int => ∃ i blanks sign digits rest, Numeral value i blanks sign digits rest ∧
      -2 ^ 31 ≤ i ∧ i < 2 ^ 31
  | .choice => value ∈ o.choices

/-- The program goes on after the option. -/
structure GoesOn (o : Opt) (value : Bytes) : Prop where
  help : o.action ≠ .help
  version : o.action ≠ .version
  accepts : o.Takes → o.Accepts value

/-- The program ends at the option. -/
inductive Ends (o : Opt) (opt value : Bytes) : Exit → Prop where
  | help : o.action = .help → Ends o opt value .help
  | version : o.action = .version → Ends o opt value .version
  | int : o.Takes → o.type = .int → ¬o.Accepts value → Ends o opt value
      (.error (lit "option " ++ opt ++ lit ": invalid integer value: '" ++ value ++ lit "'"))
  | choice : o.Takes → o.type = .choice → ¬o.Accepts value → Ends o opt value
      (.error (lit "option " ++ opt ++ lit ": invalid choice: '" ++ value ++ lit "' (choose from "
        ++ (lit ", ").intercalate (o.choices.map fun c ↦ lit "'" ++ c ++ lit "'") ++ lit ")"))

/-- The value it stores where `old` is stored, if it does not end the program. -/
def stored (o : Opt) (value old : Bytes) : Option Bytes :=
  match o.action with
  | .store | .append => some value
  | .storeConst | .appendConst => some o.const
  | .storeTrue => some (lit "1")
  | .storeFalse => some (lit "0")
  | .count => some (strInc old)
  | .help | .version | .none => none

/-- The value that it also appends to a list. -/
def listed (o : Opt) (value : Bytes) : Option Bytes :=
  match o.action with
  | .append => some value
  | .appendConst => some o.const
  | _ => none

/-- What it does to the values. -/
def assign (o : Opt) (value : Bytes) (vs : Values) : Values :=
  let vs := match o.stored value (vs.str o.dest) with
    | none => vs
    | some v => vs.set o.dest v
  match o.listed value with
  | none => vs
  | some v => vs.pushBack o.dest v

end Opt

/-- An option as it was given. -/
structure Use where
  option : Opt
  value : Bytes

/-- The values after these options. -/
def Values.after (vs : Values) (uses : List Use) : Values :=
  uses.foldl (fun vs u ↦ u.option.assign u.value vs) vs

/-! ## Options as they are written -/

/-- Where the value of an option is. -/
inductive Spelling where
  | alone
  | attached (value : Bytes)
  /-- In the next argument. -/
  | separate (value : Bytes)

/-- An option: `-c`, `-cVALUE` or `-c VALUE`, `--name`, `--name=VALUE` or `--name VALUE`. -/
inductive Form where
  | short (c : UInt8) (s : Spelling)
  | long (name : Bytes) (s : Spelling)

namespace Form

/-- The argument, after its first dash. -/
def first : Form → Bytes
  | short c (.attached value) => c :: value
  | short c _ => [c]
  | long name (.attached value) => 45 :: (name ++ 61 :: value)
  | long name _ => 45 :: name

theorem first_ne_nil (f : Form) : f.first ≠ [] := by
  obtain ⟨c, s⟩ | ⟨name, s⟩ := f <;> cases s <;> simp [first]

/-- The arguments after it. -/
def following : Form → List Bytes
  | short _ (.separate value) | long _ (.separate value) => [value]
  | _ => []

/-- The value that is written, which is empty if there is none. -/
def value : Form → Bytes
  | short _ (.attached value) | short _ (.separate value)
  | long _ (.attached value) | long _ (.separate value) => value
  | _ => []

/-- The option, as messages call it. -/
def opt : Form → Bytes
  | short c _ => lit "-" ++ [c]
  | long name _ => lit "--" ++ name

/-- It cannot be taken for anything else. -/
def Named : Form → Prop
  | short c _ => c ≠ 45
  | long name s => 61 ∉ name ∧ (name = [] → ∃ value, s = .attached value)

/-- It names this option of the parser.  A long name may be cut short, as long as there is only one
that begins like this, and may not even be written out if there is another. -/
inductive Finds (p : OptionParser) : Form → Opt → Prop where
  | short {c : UInt8} {s : Spelling} {o : Opt} : p.optmapS[[c]]? = some o → Finds p (short c s) o
  | long {name full : Bytes} {s : Spelling} {o : Opt} : p.optmapL[full]? = some o →
      name <+: full → (∀ other ∈ p.optmapL, name <+: other → other = full) →
      Finds p (long name s) o

/-- The same name, with the value elsewhere. -/
def respell : Form → Spelling → Form
  | short c _, s => short c s
  | long name _, s => long name s

/-- What is named does not depend on where the value is. -/
theorem Finds.respell {p : OptionParser} {f : Form} {o : Opt} (h : f.Finds p o) (s : Spelling) :
    (f.respell s).Finds p o := by
  cases h with
  | short ho => exact .short ho
  | long ho hfull hone => exact .long ho hfull hone

/-- It names no option, or more than one, and this is the message. -/
inductive Misses (p : OptionParser) : Form → Bytes → Prop where
  | short {c : UInt8} {s : Spelling} : [c] ∉ p.optmapS →
      Misses p (short c s) (lit "no such option: -" ++ [c])
  | long {name : Bytes} {s : Spelling} : (∀ full ∈ p.optmapL, ¬name <+: full) →
      Misses p (long name s) (lit "no such option: --" ++ name)
  /-- The names are listed in their order. -/
  | ambiguous {name : Bytes} {s : Spelling} {names : List Bytes} :
      names.Pairwise (fun x y ↦ compare x y = .lt) → 1 < names.length →
      (∀ full, full ∈ names ↔ full ∈ p.optmapL ∧ name <+: full) →
      Misses p (long name s) (lit "ambiguous option: --" ++ name ++ lit " ("
        ++ (lit ", ").intercalate names ++ lit "?)")

/-- The value is where the parser looks for it. -/
def Spelled (nargs : Nat) : Form → Prop
  | short _ .alone | long _ .alone => nargs ≠ 1
  | short _ (.attached value) => nargs = 1 ∧ value ≠ []
  | short _ (.separate _) => nargs = 1
  | long _ (.attached value) => nargs = 1 → value ≠ []
  | long _ (.separate value) => nargs = 1 ∧ value ≠ []

/-- There is no value, though these arguments come next. -/
def Bare (rest : List Bytes) : Form → Prop
  | short _ .alone | long _ .alone => rest = []
  | short _ _ => False
  | long _ (.attached value) | long _ (.separate value) => value = []

/-- It is this option, and well written. -/
structure Means (p : OptionParser) (f : Form) (o : Opt) : Prop where
  named : f.Named
  found : f.Finds p o
  spelled : f.Spelled o.nargs

/-- It is this option, well written, and the program goes on. -/
structure Passes (p : OptionParser) (f : Form) (o : Opt) : Prop extends f.Means p o where
  goes_on : o.GoesOn f.value

/-- The program ends at this option. -/
inductive Stops (p : OptionParser) (rest : List Bytes) : Form → Exit → Prop where
  | unknown {f : Form} {msg : Bytes} (named : f.Named) (first : f.following = [])
      (misses : f.Misses p msg) : Stops p rest f (.error msg)
  | missing {f : Form} {o : Opt} (named : f.Named) (found : f.Finds p o)
      (nargs : o.nargs = 1) (bare : f.Bare rest) :
      Stops p rest f (.error (f.opt ++ lit " option requires an argument"))
  | ends {f : Form} {o : Opt} {e : Exit} (means : f.Means p o)
      (ends : o.Ends f.opt f.value e) : Stops p rest f e
  /-- The rest of the argument is not read any more. -/
  | flag {c : UInt8} {s : Bytes} {o : Opt} {e : Exit} (means : (short c .alone).Means p o)
      (ends : o.Ends (lit "-" ++ [c]) [] e) : Stops p rest (short c (.attached s)) e

end Form

/-! ## Command lines -/

/-- Options without a value, which share an argument with what comes next. -/
abbrev Flags := List (UInt8 × Opt)

namespace Flags

/-- The letters. -/
def text (flags : Flags) : Bytes := flags.map (·.1)

/-- The options that are given by them. -/
def uses (flags : Flags) : List Use := flags.map fun x ↦ ⟨x.2, []⟩

/-- Each one is found, has no value, and lets the program go on. -/
def Pass (p : OptionParser) (flags : Flags) : Prop :=
  ∀ x ∈ flags, (Form.short x.1 .alone).Passes p x.2

end Flags

/-- An argument that names no option. -/
def Plain (arg : Bytes) : Prop := ∀ c s, arg ≠ 45 :: c :: s

/-- A part of a command line. -/
inductive Item where
  | word (w : Bytes)
  | option (flags : Flags) (form : Form) (o : Opt)

namespace Item

/-- How it is written. -/
def args : Item → List Bytes
  | word w => [w]
  | option flags form _ => (45 :: (flags.text ++ form.first)) :: form.following

/-- The options in it. -/
def uses : Item → List Use
  | word _ => []
  | option flags form o => flags.uses ++ [⟨o, form.value⟩]

/-- The arguments in it that are left over. -/
def words : Item → List Bytes
  | word w => [w]
  | option _ _ _ => []

/-- The parser reads on after it. -/
def Fits (p : OptionParser) : Item → Prop
  | word w => Plain w ∧ p.interspersedArgs
  | option flags form o => flags.Pass p ∧ form.Passes p o

end Item

/-- What ends a command line. -/
inductive Ending where
  | nothing
  | dashes (flags : Flags) (rest : List Bytes)
  /-- The first word ends the options, if the parser is told so. -/
  | word (w : Bytes) (rest : List Bytes)
  | exit (flags : Flags) (form : Form) (rest : List Bytes) (e : Exit)

namespace Ending

/-- How it is written, with everything that comes after it. -/
def args : Ending → List Bytes
  | nothing => []
  | dashes flags rest => (45 :: (flags.text ++ [45])) :: rest
  | word w rest => w :: rest
  | exit flags form rest _ => (45 :: (flags.text ++ form.first)) :: (form.following ++ rest)

/-- The options in it that count. -/
def uses : Ending → List Use
  | dashes flags _ => flags.uses
  | _ => []

/-- The arguments that are left over. -/
def words : Ending → List Bytes
  | dashes _ rest => rest
  | word w rest => w :: rest
  | _ => []

/-- How the program ends there, if it does. -/
def exit? : Ending → Option Exit
  | exit _ _ _ e => some e
  | _ => none

/-- The parser reads no more options after it. -/
def Fits (p : OptionParser) : Ending → Prop
  | nothing => True
  | dashes flags _ => flags.Pass p
  | word w _ => Plain w ∧ ¬p.interspersedArgs
  | exit flags form rest e => flags.Pass p ∧ form.Stops p rest e

end Ending

/-- A command line, for the options of a parser. -/
structure CommandLine (p : OptionParser) where
  items : List Item
  ending : Ending
  items_fit : ∀ x ∈ items, x.Fits p
  ending_fits : ending.Fits p

namespace CommandLine

variable {p : OptionParser}

/-- How it is written. -/
def args (l : CommandLine p) : List Bytes := l.items.flatMap Item.args ++ l.ending.args

/-- The options that were given, in order. -/
def uses (l : CommandLine p) : List Use := l.items.flatMap Item.uses ++ l.ending.uses

/-- The arguments that are left over. -/
def words (l : CommandLine p) : List Bytes := l.items.flatMap Item.words ++ l.ending.words

end CommandLine

theorem exists_passes_of_flags {p : OptionParser} {flags : Flags} (hf : flags.Pass p) {u : Use}
    (hu : u ∈ flags.uses) : ∃ f : Form, f.Passes p u.option ∧ f.value = u.value := by
  obtain ⟨x, hx, rfl⟩ := List.mem_map.1 hu
  exact ⟨.short x.1 .alone, hf x hx, rfl⟩

/-- Every option that was given was written. -/
theorem exists_passes {p : OptionParser} {l : CommandLine p} {u : Use} (hu : u ∈ l.uses) :
    ∃ f : Form, f.Passes p u.option ∧ f.value = u.value := by
  rcases List.mem_append.1 hu with hu | hu
  · obtain ⟨x, hx, hu⟩ := List.mem_flatMap.1 hu
    have hfits := l.items_fit x hx
    cases x with
    | word w => cases hu
    | option flags form o =>
      rcases List.mem_append.1 hu with hu | hu
      · exact exists_passes_of_flags hfits.1 hu
      · obtain rfl := List.mem_singleton.1 hu
        exact ⟨form, hfits.2, rfl⟩
  · have hfits := l.ending_fits
    revert hu hfits
    cases l.ending with
    | dashes flags rest => exact fun hu hfits ↦ exists_passes_of_flags hfits hu
    | _ => exact fun hu ↦ absurd hu List.not_mem_nil

/-- The parser, once it has read this. -/
def OptionParser.after (p : OptionParser) (uses : List Use) (words remaining : List Bytes) :
    OptionParser :=
  { p with
    values := p.values.after uses
    leftover := p.leftover ++ words
    remaining }

/-- What a command line says to a parser. -/
def CommandLine.result {p : OptionParser} (l : CommandLine p) (q : OptionParser) :
    Except Exit OptionParser :=
  match l.ending.exit? with
  | some e => .error e
  | none => .ok (q.after l.uses l.words [])

/-! ## Parsers with the same options -/

/-- The parsers take the same command lines. -/
structure SameOptions (p q : OptionParser) : Prop where
  short : q.optmapS = p.optmapS
  long : q.optmapL = p.optmapL
  interspersedArgs : q.interspersedArgs = p.interspersedArgs

section Same

variable {p q : OptionParser} {f : Form} {o : Opt} {e : Exit} {rest : List Bytes}

theorem sameOptions_after (p : OptionParser) (uses : List Use) (words remaining : List Bytes) :
    SameOptions p (p.after uses words remaining) := ⟨rfl, rfl, rfl⟩

theorem finds_same (hs : SameOptions p q) (h : f.Finds p o) : f.Finds q o := by
  cases h with
  | short ho => exact .short (hs.short ▸ ho)
  | long ho hfull hone => exact .long (hs.long ▸ ho) hfull (hs.long ▸ hone)

theorem misses_same {msg : Bytes} (hs : SameOptions p q) (h : f.Misses p msg) :
    f.Misses q msg := by
  cases h with
  | short hc => exact .short (hs.short ▸ hc)
  | long hnone => exact .long (hs.long ▸ hnone)
  | ambiguous hsorted hlen hnames => exact .ambiguous hsorted hlen (hs.long ▸ hnames)

theorem means_same (hs : SameOptions p q) (h : f.Means p o) : f.Means q o :=
  ⟨h.named, finds_same hs h.found, h.spelled⟩

theorem passes_same (hs : SameOptions p q) (h : f.Passes p o) : f.Passes q o :=
  ⟨means_same hs h.toMeans, h.goes_on⟩

theorem flags_same {flags : Flags} (hs : SameOptions p q) (h : flags.Pass p) : flags.Pass q :=
  fun x hx ↦ passes_same hs (h x hx)

theorem stops_same (hs : SameOptions p q) (h : f.Stops p rest e) : f.Stops q rest e := by
  cases h with
  | unknown named first misses => exact .unknown named first (misses_same hs misses)
  | missing named found nargs bare => exact .missing named (finds_same hs found) nargs bare
  | ends means ends => exact .ends (means_same hs means) ends
  | flag means ends => exact .flag (means_same hs means) ends

theorem item_same {x : Item} (hs : SameOptions p q) (h : x.Fits p) : x.Fits q := by
  cases x with
  | word w => exact ⟨h.1, hs.interspersedArgs.trans h.2⟩
  | option flags form o => exact ⟨flags_same hs h.1, passes_same hs h.2⟩

theorem ending_same {e : Ending} (hs : SameOptions p q) (h : e.Fits p) : e.Fits q := by
  cases e with
  | nothing => trivial
  | dashes flags rest => exact flags_same hs h
  | word w rest => exact ⟨h.1, fun hq ↦ h.2 (hs.interspersedArgs.symm.trans hq)⟩
  | exit flags form rest e => exact ⟨flags_same hs h.1, stops_same hs h.2⟩

end Same

/-- A command line for one parser is one for another. -/
def CommandLine.same {p q : OptionParser} (hs : SameOptions p q) (l : CommandLine p) :
    CommandLine q :=
  ⟨l.items, l.ending, fun x hx ↦ item_same hs (l.items_fit x hx), ending_same hs l.ending_fits⟩

end DnsHive.OptParse
