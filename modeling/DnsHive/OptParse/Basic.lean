import Mathlib.Algebra.GroupWithZero.Nat
import Mathlib.Data.Finmap
import Mathlib.Data.List.DropRight
import Mathlib.Data.Nat.Digits.Defs
import DnsHive.DnsDB.Connect

/-!
# `optparse`: the parser of the command line

An `OptionParser` is given its options one by one and then reads the arguments from left to right.
An argument that starts with a dash names an option, by its letter or by the beginning of its long
name, and says what is to be done with a value (`process_opt`).  All others are left over.

The parser writes what it has read to a `Values`.  It never returns from an error, nor from the
options that print something and end the program: `Exit`.

Strings that name an action or a type are inductive types here.  An option is configured by the
reference that `add_option` returns, before anything else happens: `addOption` is given the function
that does it.

Two things are left out.  A callback is code of the program that uses the parser, so that there are
no options with a callback; and there are none of the types `float`, `double` and `complex`, for
which the standard library decides what it takes for a number.
-/

set_option autoImplicit false

namespace DnsHive.OptParse

/-! ## Strings -/

/-- `str_join(sep, begin, end)` -/
def strJoin (sep : Bytes) (l : List Bytes) : Bytes := sep.intercalate l

/-- `str_replace(s, patt, repl)`, for a pattern that is not empty.  The first argument counts how
many bytes of the last match are still to be passed over. -/
def strReplaceFrom (patt repl : Bytes) : Nat → Bytes → Bytes
  | _, [] => []
  | skip + 1, _ :: s => strReplaceFrom patt repl skip s
  | 0, b :: s =>
    if patt.isPrefixOf (b :: s) then repl ++ strReplaceFrom patt repl (patt.length - 1) s
    else b :: strReplaceFrom patt repl 0 s

/-- `str_replace(s, patt, repl)`, from the beginning of the string. -/
def strReplace (s patt repl : Bytes) : Bytes := strReplaceFrom patt repl 0 s

/-- `static std::string basename(const std::string& s)` -/
def basename (s : Bytes) : Bytes :=
  match s.rdropWhile (· = 47) with
  | [] => s.take 1
  | b => b.rtakeWhile (· ≠ 47)

/-- The bytes of some arguments, and their ends. -/
def weight (args : List Bytes) : Nat := (args.map fun arg ↦ arg.length + 1).sum

theorem weight_cons (arg : Bytes) (args : List Bytes) :
    weight (arg :: args) = arg.length + 1 + weight args := by
  simp [weight]

theorem weight_le {r args : List Bytes} (h : r <:+ args) : weight r ≤ weight args := by
  obtain ⟨t, rfl⟩ := h
  simp only [weight, List.map_append, List.sum_append]
  exact Nat.le_add_left _ _

/-- `std::istringstream(s) >> t`, for a signed number of so many bits: `none` if it fails. -/
def extract (bits : Nat) (s : Bytes) : Option Int :=
  let (sign, rest) := Strtol.sign (s.dropWhile Strtol.isSpace)
  match rest.takeWhile (Strtol.isDigit 10) with
  | [] => none
  | digits =>
    let n := sign * Strtol.number 10 digits
    if -2 ^ (bits - 1) ≤ n ∧ n < 2 ^ (bits - 1) then some n else none

/-- `int i; std::istringstream(s) >> i;`, with the `i` that is left if it fails: 0, or the bound
that has been passed. -/
def extractInt (s : Bytes) : Int :=
  let (sign, rest) := Strtol.sign (s.dropWhile Strtol.isSpace)
  max (-2 ^ 31) (min (2 ^ 31 - 1) (sign * Strtol.number 10 (rest.takeWhile (Strtol.isDigit 10))))

/-- The decimal digits of a number. -/
def digits (n : Nat) : Bytes :=
  if n = 0 then [48] else (Nat.digits 10 n).reverse.map fun d ↦ UInt8.ofNat (48 + d)

/-- `ss << i`, for an `int`. -/
def decimal (i : Int) : Bytes := if i < 0 then 45 :: digits i.natAbs else digits i.natAbs

/-- `static std::string str_inc(const std::string& s)`.  The sum wraps, and a string of blanks is 0;
in C++ neither is defined. -/
def strInc (s : Bytes) : Bytes :=
  decimal ((extractInt (if s = [] then lit "0" else s) + 1).bmod (2 ^ 32))

/-! ## What was read -/

/-- `typedef std::map<std::string, std::string> strMap` -/
abbrev StrMap := Finmap fun _ : Bytes ↦ Bytes

/-- `typedef std::map<std::string, std::list<std::string> > lstMap` -/
abbrev LstMap := Finmap fun _ : Bytes ↦ List Bytes

/-- `class Values` -/
structure Values where
  map : StrMap
  appendMap : LstMap
  userSet : Finset Bytes

namespace Values

/-- `Values()` -/
def init : Values := ⟨∅, ∅, ∅⟩

/-- `bool is_set(const std::string& d) const` -/
def isSet (vs : Values) (d : Bytes) : Bool := (vs.map.lookup d).isSome

/-- `bool is_set_by_user(const std::string& d) const` -/
def isSetByUser (vs : Values) (d : Bytes) : Bool := d ∈ vs.userSet

/-- `const std::string& operator[] (const std::string& d) const` -/
def str (vs : Values) (d : Bytes) : Bytes := (vs.map.lookup d).getD []

/-- `Value get(const std::string& d) const`, as the `bool` it is converted to.  Only 0 and 1 are
read as one. -/
def bool (vs : Values) (d : Bytes) : Bool := (vs.map.lookup d).any fun s ↦ extract 64 s = some 1

/-- `const std::list<std::string>& all(const std::string& d) const`, which follows the iterator to
the end of the map where there is no such list. -/
def all (vs : Values) (d : Bytes) : Option (List Bytes) := vs.appendMap.lookup d

/-- `_values[d] = value; _values.is_set_by_user(d, true);` -/
def set (vs : Values) (d value : Bytes) : Values :=
  { vs with map := vs.map.insert d value, userSet := insert d vs.userSet }

/-- `_values.all(d).push_back(value)` -/
def pushBack (vs : Values) (d value : Bytes) : Values :=
  { vs with appendMap := vs.appendMap.insert d ((vs.all d).getD [] ++ [value]) }

/-- `if (!_values.is_set(d)) _values[d] = value;` -/
def setDefault (vs : Values) (d value : Bytes) : Values :=
  if vs.isSet d then vs else { vs with map := vs.map.insert d value }

end Values

/-! ## Options -/

/-- `_action`.  `none` is any name that is not known, or `callback` where no callback has been set;
for these nothing is done. -/
inductive Act where
  | store
  | storeConst
  | storeTrue
  | storeFalse
  | append
  | appendConst
  | count
  | help
  | version
  | none
  deriving DecidableEq

/-- `_type`.  `string` is also any name that is not known, for which nothing is checked, and `int`
is also `long`. -/
inductive Kind where
  | string
  | int
  | choice
  deriving DecidableEq

/-- `class Option` -/
structure Opt where
  action : Act
  type : Kind
  dest : Bytes
  default : Bytes
  nargs : Nat
  const : Bytes
  choices : List Bytes
  deriving DecidableEq

namespace Opt

/-- `Option()` -/
def init : Opt := ⟨.store, .string, [], [], 1, [], []⟩

/-- `Option& Option::action(const std::string& a)` -/
def setAction (o : Opt) (a : Act) : Opt :=
  match a with
  | .storeConst | .storeTrue | .storeFalse | .appendConst | .count | .help | .version =>
    { o with action := a, nargs := 0 }
  | _ => { o with action := a }

/-- `Option& dest(const std::string& d)` -/
def setDest (o : Opt) (d : Bytes) : Opt := { o with dest := d }

/-- `Option& set_default(const std::string& d)` -/
def setDefault (o : Opt) (d : Bytes) : Opt := { o with default := d }

/-- `std::string Option::check_type(const std::string& opt, const std::string& val) const` -/
def checkType (o : Opt) (opt val : Bytes) : Bytes :=
  match o.type with
  | .string => []
  | .int =>
    if (extract 32 val).isSome then []
    else lit "option " ++ opt ++ lit ": invalid integer value: '" ++ val ++ lit "'"
  | .choice =>
    if val ∈ o.choices then []
    else lit "option " ++ opt ++ lit ": invalid choice: '" ++ val ++ lit "' (choose from "
      ++ strJoin (lit ", ") (o.choices.map fun c ↦ lit "'" ++ c ++ lit "'") ++ lit ")"

end Opt

/-- `if (it->get_default() != "" && !_values.is_set(it->dest()))
_values[it->dest()] = it->get_default();`, for some options. -/
def Values.withDefaults (vs : Values) (opts : List Opt) : Values :=
  opts.foldl (fun vs o ↦ if o.default = [] then vs else vs.setDefault o.dest o.default) vs

/-! ## The parser -/

/-- `typedef std::map<std::string, Option const*> optMap`, with what the pointers lead to. -/
abbrev OptMap := Std.TreeMap Bytes Opt compare

/-- How the parser ends the program. -/
inductive Exit where
  /-- The usage and this message are printed to `std::cerr`. -/
  | error (msg : Bytes)
  /-- `print_help(); std::exit(0);` -/
  | help
  /-- `print_version(); std::exit(0);` -/
  | version
  deriving DecidableEq

/-- The argument of `std::exit`. -/
def Exit.code : Exit → Int
  | .error _ => 2
  | .help | .version => 0

/-- `class OptionParser` -/
structure OptionParser where
  usage : Bytes
  version : Bytes
  addHelpOption : Bool
  addVersionOption : Bool
  prog : Bytes
  interspersedArgs : Bool
  values : Values
  opts : List Opt
  optmapS : OptMap
  optmapL : OptMap
  defaults : StrMap
  remaining : List Bytes
  leftover : List Bytes

namespace OptionParser

/-- `OptionParser::OptionParser()` -/
def init : OptionParser where
  usage := lit "%prog [options]"
  version := []
  addHelpOption := true
  addVersionOption := true
  prog := []
  interspersedArgs := true
  values := Values.init
  opts := []
  optmapS := ∅
  optmapL := ∅
  defaults := ∅
  remaining := []
  leftover := []

/-- One name of an option: a turn of the loop of `add_option`, which carries the destination and
the one to fall back to. -/
def addName : Bytes × Bytes → Bytes → Bytes × Bytes
  | (dest, fallback), name =>
    if name.take 2 = lit "--" then
      (if dest = [] then strReplace (name.drop 2) (lit "-") (lit "_") else dest, fallback)
    else (dest, if fallback = [] then (name.drop 1).take 1 else fallback)

/-- `Option& OptionParser::add_option(const std::vector<std::string>& v)` -/
def addOption (p : OptionParser) (v : List Bytes) (configure : Opt → Opt) : OptionParser :=
  let (dest, fallback) := v.foldl addName ([], [])
  let option := configure { Opt.init with dest := if dest = [] then fallback else dest }
  let (long, short) := v.partition fun name ↦ name.take 2 = lit "--"
  { p with
    opts := p.opts ++ [option]
    optmapL := long.foldl (fun m name ↦ m.insert (name.drop 2) option) p.optmapL
    optmapS := short.foldl (fun m name ↦ m.insert ((name.drop 1).take 1) option) p.optmapS }

/-- `_opts.splice(_opts.begin(), _opts, --(_opts.end()))` -/
def spliceLast (p : OptionParser) : OptionParser :=
  { p with opts := p.opts.getLast?.toList ++ p.opts.dropLast }

/-- `_remaining.pop_front()` -/
def popFront (p : OptionParser) : OptionParser := { p with remaining := p.remaining.tail }

/-- `_remaining.push_front(arg)` -/
def pushFront (p : OptionParser) (arg : Bytes) : OptionParser :=
  { p with remaining := arg :: p.remaining }

/-- `void OptionParser::process_opt(const Option& o, const std::string& opt,
const std::string& value)` -/
def processOpt (p : OptionParser) (o : Opt) (opt value : Bytes) : Except Exit OptionParser :=
  match o.action with
  | .store =>
    let err := o.checkType opt value
    if err ≠ [] then .error (.error err)
    else .ok { p with values := p.values.set o.dest value }
  | .storeConst => .ok { p with values := p.values.set o.dest o.const }
  | .storeTrue => .ok { p with values := p.values.set o.dest (lit "1") }
  | .storeFalse => .ok { p with values := p.values.set o.dest (lit "0") }
  | .append =>
    let err := o.checkType opt value
    if err ≠ [] then .error (.error err)
    else .ok { p with values := (p.values.set o.dest value).pushBack o.dest value }
  | .appendConst =>
    .ok { p with values := (p.values.set o.dest o.const).pushBack o.dest o.const }
  | .count => .ok { p with values := p.values.set o.dest (strInc (p.values.str o.dest)) }
  | .help => .error .help
  | .version => .error .version
  | .none => .ok p

/-- `const Option& OptionParser::lookup_short_opt(const std::string& opt) const` -/
def lookupShortOpt (p : OptionParser) (opt : Bytes) : Except Exit Opt :=
  match p.optmapS[opt]? with
  | none => .error (.error (lit "no such option: -" ++ opt))
  | some o => .ok o

/-- `void OptionParser::handle_short_opt(const std::string& opt, const std::string& arg)` -/
def handleShortOpt (p : OptionParser) (opt arg : Bytes) : Except Exit OptionParser :=
  let p := p.popFront
  match p.lookupShortOpt opt with
  | .error e => .error e
  | .ok option =>
    if option.nargs = 1 then
      if arg.drop 2 = [] then
        match p.remaining with
        | [] => .error (.error (lit "-" ++ opt ++ lit " option requires an argument"))
        | value :: _ => p.popFront.processOpt option (lit "-" ++ opt) value
      else p.processOpt option (lit "-" ++ opt) (arg.drop 2)
    else if 2 < arg.length then
      (p.pushFront (lit "-" ++ arg.drop 2)).processOpt option (lit "-" ++ opt) []
    else p.processOpt option (lit "-" ++ opt) []

/-- `const Option& OptionParser::lookup_long_opt(const std::string& opt) const` -/
def lookupLongOpt (p : OptionParser) (opt : Bytes) : Except Exit Opt :=
  match p.optmapL.toList.filter fun kv ↦ opt.isPrefixOf kv.1 with
  | [] => .error (.error (lit "no such option: --" ++ opt))
  | [(_, o)] => .ok o
  | matching =>
    .error (.error (lit "ambiguous option: --" ++ opt ++ lit " ("
      ++ strJoin (lit ", ") (matching.map (·.1)) ++ lit "?)"))

/-- An argument up to the first `=`, and what comes after it. -/
def splitDelim (optstr : Bytes) : Bytes × Option Bytes :=
  (optstr.takeWhile (· ≠ 61), (optstr.dropWhile (· ≠ 61)).tail?)

/-- The value of a long option, which may be the next argument. -/
def longValue (p : OptionParser) (option : Opt) (delim : Option Bytes) : OptionParser × Bytes :=
  if option.nargs = 1 ∧ delim = none then (p.popFront, p.remaining.headD [])
  else (p, delim.getD [])

/-- `void OptionParser::handle_long_opt(const std::string& optstr)` -/
def handleLongOpt (p : OptionParser) (optstr : Bytes) : Except Exit OptionParser :=
  let p := p.popFront
  let (opt, delim) := splitDelim optstr
  match p.lookupLongOpt opt with
  | .error e => .error e
  | .ok option =>
    let (p, value) := p.longValue option delim
    if option.nargs = 1 ∧ value = [] then
      .error (.error (lit "--" ++ opt ++ lit " option requires an argument"))
    else p.processOpt option (lit "--" ++ opt) value

/-! ## The loop -/

/-- What remains takes at most so many turns of the loop. -/
def pending (p : OptionParser) : Nat := weight p.remaining

/-- Only the values change when an option is processed. -/
theorem pending_processOpt {p p' : OptionParser} {o : Opt} {opt value : Bytes}
    (h : p.processOpt o opt value = .ok p') : p'.pending = p.pending := by
  cases ho : o.action <;> simp only [processOpt, ho] at h <;> try split at h
  all_goals simp_all only [reduceCtorEq, Except.ok.injEq]
  all_goals rw [← h]; rfl

theorem pending_popFront_le (p : OptionParser) : p.popFront.pending ≤ p.pending := by
  cases h : p.remaining <;> simp [pending, popFront, weight, h]

theorem pending_popFront {p : OptionParser} {arg : Bytes} {rest : List Bytes}
    (h : p.remaining = arg :: rest) : p.popFront.pending + arg.length < p.pending := by
  simp only [pending, popFront, h, List.tail_cons, weight_cons]
  omega

theorem pending_longValue_le (p : OptionParser) (option : Opt) (delim : Option Bytes) :
    (p.longValue option delim).1.pending ≤ p.pending := by
  unfold longValue
  split
  · exact pending_popFront_le p
  · exact Nat.le_refl _

theorem pending_handleLongOpt {p p' : OptionParser} {arg optstr : Bytes} {rest : List Bytes}
    (hr : p.remaining = arg :: rest) (h : p.handleLongOpt optstr = .ok p') :
    p'.pending < p.pending := by
  have hp := pending_popFront hr
  simp only [handleLongOpt] at h
  split at h
  · cases h
  rename_i option _
  have := pending_longValue_le p.popFront option (splitDelim optstr).2
  split at h
  · cases h
  · rw [pending_processOpt h]
    omega

theorem pending_handleShortOpt {p p' : OptionParser} {arg opt : Bytes} {rest : List Bytes}
    (hr : p.remaining = arg :: rest) (h : p.handleShortOpt opt arg = .ok p') :
    p'.pending < p.pending := by
  have hp := pending_popFront hr
  have hpp := pending_popFront_le p.popFront
  simp only [handleShortOpt] at h
  split at h
  · cases h
  split at h
  · split at h
    · split at h
      · cases h
      · rw [pending_processOpt h]
        omega
    · rw [pending_processOpt h]
      omega
  · split at h
    · have hl : (lit "-" ++ arg.drop 2).length < arg.length := by
        have : (lit "-").length = 1 := rfl
        simp only [List.length_append, List.length_drop]
        omega
      rw [pending_processOpt h]
      simp only [pending, pushFront, weight_cons] at hp ⊢
      omega
    · rw [pending_processOpt h]
      omega

/-- The loop of `parse_args`. -/
def parseLoop (p : OptionParser) : Except Exit OptionParser :=
  match _ : p.remaining with
  | [] => .ok p
  | arg :: _ =>
    if arg = lit "--" then .ok p.popFront
    else if arg.take 2 = lit "--" then
      match _ : p.handleLongOpt (arg.drop 2) with
      | .error e => .error e
      | .ok p => parseLoop p
    else if arg.take 1 = lit "-" ∧ 1 < arg.length then
      match _ : p.handleShortOpt ((arg.drop 1).take 1) arg with
      | .error e => .error e
      | .ok p => parseLoop p
    else
      let p' := { p.popFront with leftover := p.leftover ++ [arg] }
      if p.interspersedArgs then parseLoop p' else .ok p'
termination_by p.pending
decreasing_by
  · exact pending_handleLongOpt ‹_› ‹_›
  · exact pending_handleShortOpt ‹_› ‹_›
  · exact Nat.lt_of_le_of_lt (Nat.le_add_right _ _) (pending_popFront ‹_›)

/-- `--version`, if there is one to be shown. -/
def addVersion (p : OptionParser) : OptionParser :=
  if p.addVersionOption ∧ p.version ≠ [] then
    (p.addOption [lit "--version"] (·.setAction .version)).spliceLast
  else p

/-- `-h` and `--help`, unless the parser is told to do without. -/
def addHelp (p : OptionParser) : OptionParser :=
  if p.addHelpOption then
    (p.addOption [lit "-h", lit "--help"] (·.setAction .help)).spliceLast
  else p

/-- The options that every parser has, unless it is told not to: `--version`, `-h` and `--help`. -/
def addStandardOptions (p : OptionParser) : OptionParser := p.addVersion.addHelp

/-- What remains after the loop is left over. -/
def drain (p : OptionParser) : OptionParser :=
  { p with remaining := [], leftover := p.leftover ++ p.remaining }

/-- The defaults, for everything that is not set: those of the parser, then those of the options. -/
def setDefaults (p : OptionParser) : OptionParser :=
  { p with values := { p.values with map := p.values.map ∪ p.defaults }.withDefaults p.opts }

/-- `Values& OptionParser::parse_args(const std::vector<std::string>& v)`: the values, and the
arguments that are left over. -/
def parseArgs (p : OptionParser) (v : List Bytes) : Except Exit (Values × List Bytes) :=
  match { p with remaining := v }.addStandardOptions.parseLoop with
  | .error e => .error e
  | .ok p => .ok (p.drain.setDefaults.values, p.drain.leftover)

/-- `Values& OptionParser::parse_args(const int64_t argc, char const* const* const argv)`, with
`argv[0]` and the arguments after it. -/
def parseArgv (p : OptionParser) (argv0 : Bytes) (args : List Bytes) :
    Except Exit (Values × List Bytes) :=
  (if p.prog = [] then { p with prog := basename argv0 } else p).parseArgs args

/-- What `void OptionParser::error(const std::string &msg) const` prints to `std::cerr`. -/
def errorText (p : OptionParser) (msg : Bytes) : Bytes :=
  (if p.usage = lit "SUPPRESSUSAGE" then []
    else lit "Usage: " ++ strReplace p.usage (lit "%prog") p.prog ++ lit "\n\n")
  ++ p.prog ++ lit ": error: " ++ msg ++ lit "\n"

end OptionParser

end DnsHive.OptParse
