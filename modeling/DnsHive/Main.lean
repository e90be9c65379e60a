import DnsHive.Hive.Exits
import DnsHive.OptParse.Values

/-!
# `main`: from the arguments to the exit code

`psr` is the parser of the program with its nine options, and `Options.ofValues` is what `run` reads
from the values.

* `commandLine_iff`: which `Options` the arguments of the program stand for, if any.
* `commandLine_of_options`: there are arguments for all `Options`.
* `main_exit`: the exit code of the program, for any arguments.
-/

set_option autoImplicit false

namespace DnsHive

open Msgpack OptParse

/-- The options that `main` adds. -/
def psr : OptionParser :=
  OptionParser.init
  |>.addOption [lit "-r"] (fun o ↦ (o.setAction .append).setDest (lit "read_file"))
  |>.addOption [lit "-i"] (fun o ↦ (o.setAction .store).setDest (lit "interface"))
  |>.addOption [lit "-d"] (fun o ↦ (o.setAction .store).setDest (lit "redis_db"))
  |>.addOption [lit "-s"] (fun o ↦
    ((o.setAction .store).setDest (lit "redis_host")).setDefault (lit "localhost"))
  |>.addOption [lit "-p"] (fun o ↦
    ((o.setAction .store).setDest (lit "redis_port")).setDefault (lit "6379"))
  |>.addOption [lit "-z"] (fun o ↦ (o.setAction .store).setDest (lit "zmq_addr"))
  |>.addOption [lit "-m"] (fun o ↦ (o.setAction .store).setDest (lit "msgpack_path"))
  |>.addOption [lit "-q"] (fun o ↦ (o.setAction .storeTrue).setDest (lit "quiet"))
  |>.addOption [lit "-v"] (fun o ↦ (o.setAction .storeTrue).setDest (lit "version"))

/-- The files to read, where `none` is the list of a map that has none, followed. -/
def fileList (opt : Values) : Option (List Bytes) :=
  if opt.isSet (lit "read_file") then opt.all (lit "read_file") else some []

/-- What `run` reads from the values. -/
def Options.ofValues (opt : Values) : Option Options :=
  (fileList opt).map fun readFile ↦ {
    version := opt.bool (lit "version")
    quiet := opt.bool (lit "quiet")
    readFile
    interface := opt.map.lookup (lit "interface")
    redisDb := opt.map.lookup (lit "redis_db")
    redisHost := opt.str (lit "redis_host")
    redisPort := opt.str (lit "redis_port")
    zmqAddr := opt.map.lookup (lit "zmq_addr")
    msgpackPath := opt.map.lookup (lit "msgpack_path") }

/-- `int main (int argc, char *argv[])`, with `argv[0]` and the arguments after it. -/
def main {σ : Type} (c : Codec) (srv : Redis σ) (al : Allocator) (fuel : Nat) (env : Environment)
    (argv0 : Bytes) (args : List Bytes) (st : σ) : Option (Outcome σ) :=
  match psr.parseArgv argv0 args with
  | .error e =>
    let cerr := match e with
      | .error msg => [{ psr with prog := basename argv0 }.errorText msg]
      | _ => []
    some ⟨e.code, cerr, [], none, st⟩
  | .ok (values, _) => do
    let opt ← Options.ofValues values
    let o ← run c srv al fuel env opt st
    return { o with rc := if o.rc = 0 then 0 else 1 }

/-! ## The options of the program -/

/-- The parser of the program, when it starts to read. -/
def table : OptionParser := psr.addStandardOptions

/-- Every name in the maps leads to an option of the parser. -/
theorem mem_opts {f : Form} {o : Opt} (h : f.Finds table o) : o ∈ table.opts := by
  have hs : ∀ kv ∈ table.optmapS.toList, kv.2 ∈ table.opts := by decide
  have hl : ∀ kv ∈ table.optmapL.toList, kv.2 ∈ table.opts := by decide
  cases h with
  | short ho => exact hs _ (Std.TreeMap.mem_toList_iff_getElem?_eq_some.2 ho)
  | long ho _ _ => exact hl _ (Std.TreeMap.mem_toList_iff_getElem?_eq_some.2 ho)

theorem uses_mem {l : CommandLine table} {u : Use} (hu : u ∈ l.uses) : u.option ∈ table.opts := by
  obtain ⟨f, hf, -⟩ := exists_passes hu
  exact mem_opts hf.found

/-- The program has no counters. -/
theorem not_count (l : CommandLine table) : ∀ u ∈ l.uses, u.option.action ≠ .count := by
  have ho : ∀ o ∈ table.opts, o.action ≠ .count := by decide
  exact fun u hu ↦ ho _ (uses_mem hu)

/-- The options of the program, after a command line. -/
def OptParse.CommandLine.options {p : OptionParser} (l : CommandLine p) : Options where
  version := given l.uses (lit "version") ≠ []
  quiet := given l.uses (lit "quiet") ≠ []
  readFile := given l.uses (lit "read_file")
  interface := (given l.uses (lit "interface")).getLast?
  redisDb := (given l.uses (lit "redis_db")).getLast?
  redisHost := (given l.uses (lit "redis_host")).getLastD (lit "localhost")
  redisPort := (given l.uses (lit "redis_port")).getLastD (lit "6379")
  zmqAddr := (given l.uses (lit "zmq_addr")).getLast?
  msgpackPath := (given l.uses (lit "msgpack_path")).getLast?

section Told

variable {l : CommandLine table} {vs : Values} {d v : Bytes}

theorem lookup_told (h : vs.Tell l) :
    vs.map.lookup d = (given l.uses d).getLast?.or (defaultOf table.opts d) := by
  have ht : table.defaults.lookup d = none := rfl
  rw [h.lookup, ht, Option.or_none]

theorem lookup_given (h : vs.Tell l) (hd : defaultOf table.opts d = none) :
    vs.map.lookup d = (given l.uses d).getLast? := by
  rw [lookup_told h, hd, Option.or_none]

theorem str_given (h : vs.Tell l) (hd : defaultOf table.opts d = some v) :
    vs.str d = (given l.uses d).getLastD v := by
  rw [Values.str, lookup_told h, hd, List.getLastD_eq_getLast?]
  cases (given l.uses d).getLast? <;> rfl

/-- A switch is on if and only if it is given. -/
theorem bool_given (h : vs.Tell l) (ho : ∀ o ∈ table.opts, o.dest = d → o.action = .storeTrue)
    (hd : defaultOf table.opts d = none) : vs.bool d = decide (given l.uses d ≠ []) := by
  have hone : ∀ v ∈ given l.uses d, v = lit "1" := by
    intro v hv
    obtain ⟨u, hu, hd, hs⟩ := (mem_given (not_count l)).1 hv
    simpa [Opt.stored, ho _ (uses_mem hu) hd] using hs.symm
  rw [Values.bool, lookup_given h hd]
  cases hg : (given l.uses d).getLast? with
  | none => simp [List.getLast?_eq_none_iff.1 hg]
  | some v =>
    have hne : given l.uses d ≠ [] := fun hnil ↦ by simp [hnil] at hg
    rw [hone v (List.mem_of_getLast? hg)]
    simp only [hne, ne_eq, not_false_eq_true, decide_true]
    decide

/-- The list of the files is there whenever it is read. -/
theorem fileList_given (h : vs.Tell l) :
    fileList vs = some (given l.uses (lit "read_file")) := by
  have ho : ∀ o ∈ table.opts, o.dest = lit "read_file" → o.action = .append := by decide
  have hfiles : appended l.uses (lit "read_file") = given l.uses (lit "read_file") :=
    appended_eq_given (not_count l) fun u hu ↦ ho _ (uses_mem hu)
  rw [fileList, Values.isSet, lookup_given h (by decide), h.all, hfiles]
  by_cases hg : given l.uses (lit "read_file") = []
  · simp [hg]
  · simp [hg]

/-- **What `run` reads are the options of the command line**; it never follows the end of a map. -/
theorem ofValues_eq (h : vs.Tell l) : Options.ofValues vs = some l.options := by
  unfold Options.ofValues
  rw [fileList_given h, bool_given (d := lit "version") h (by decide) (by decide),
    bool_given (d := lit "quiet") h (by decide) (by decide),
    str_given (v := lit "localhost") h (by decide), str_given (v := lit "6379") h (by decide),
    lookup_given h (by decide), lookup_given h (by decide), lookup_given h (by decide),
    lookup_given h (by decide)]
  rfl

end Told

/-- The options that the arguments of the program stand for. -/
def commandLine (argv0 : Bytes) (args : List Bytes) : Except Exit (Option Options) :=
  (psr.parseArgv argv0 args).map fun r ↦ Options.ofValues r.1

/-- What a command line tells the program. -/
def OptParse.CommandLine.told (l : CommandLine table) : Except Exit (Option Options) :=
  match l.ending.exit? with
  | some e => .error e
  | none => .ok (some l.options)

theorem commandLine_told (argv0 : Bytes) (l : CommandLine table) :
    commandLine argv0 l.args = l.told := by
  have hp : psr.parseArgv argv0 l.args = l.outcome := OptionParser.parseArgv_outcome psr argv0 l
  rw [commandLine, hp]
  unfold CommandLine.told
  cases h : l.outcome with
  | error e =>
    rw [CommandLine.outcome_eq] at h
    cases he : l.ending.exit? with
    | some e' => simpa [he, Except.map] using h.symm
    | none => simp [he] at h
  | ok r =>
    obtain ⟨he, ht, -⟩ := outcome_tell rfl h
    simp [he, Except.map, ofValues_eq ht]

/-- **The arguments of the program stand for the options of their command line**, wherever these
stand, however they are written and whatever other words there are. -/
theorem commandLine_iff (argv0 : Bytes) (args : List Bytes) (r : Except Exit (Option Options)) :
    commandLine argv0 args = r ↔ ∃ l : CommandLine table, l.args = args ∧ l.told = r := by
  constructor
  · rintro rfl
    obtain ⟨l, rfl⟩ := CommandLine.exists_args table args
    exact ⟨l, rfl, (commandLine_told argv0 l).symm⟩
  · rintro ⟨l, rfl, rfl⟩
    exact commandLine_told argv0 l

/-! ## Arguments for all options -/

/-- The options that take a value. -/
inductive Setting where
  | readFile
  | interface
  | redisDb
  | redisHost
  | redisPort
  | zmqAddr
  | msgpackPath
  deriving DecidableEq

namespace Setting

/-- The letter that names it. -/
def letter : Setting → UInt8
  | readFile => 114
  | interface => 105
  | redisDb => 100
  | redisHost => 115
  | redisPort => 112
  | zmqAddr => 122
  | msgpackPath => 109

/-- The option that the parser has for it. -/
def opt (s : Setting) : Opt := table.optmapS[[s.letter]]?.getD Opt.init

/-- Where `main` tells the parser to store it. -/
def dest : Setting → Bytes
  | readFile => lit "read_file"
  | interface => lit "interface"
  | redisDb => lit "redis_db"
  | redisHost => lit "redis_host"
  | redisPort => lit "redis_port"
  | zmqAddr => lit "zmq_addr"
  | msgpackPath => lit "msgpack_path"

theorem dest_opt (s : Setting) : s.opt.dest = s.dest := by
  cases s <;> rfl

theorem dest_inj {s t : Setting} : s.dest = t.dest ↔ s = t := by
  cases s <;> cases t <;> decide

theorem stored_opt (s : Setting) (value old : Bytes) : s.opt.stored value old = some value := by
  cases s <;> rfl

theorem letter_ne (s : Setting) : s.letter ≠ 45 ∧ s.letter ≠ 0 := by
  cases s <;> decide

theorem goesOn_opt (s : Setting) (value : Bytes) : s.opt.GoesOn value := by
  have ht : s.opt.action ≠ .help ∧ s.opt.action ≠ .version ∧ s.opt.type = .string := by
    cases s <;> decide
  exact ⟨ht.1, ht.2.1, fun _ ↦ by simp [Opt.Accepts, ht.2.2]⟩

theorem passes (s : Setting) (value : Bytes) :
    (Form.short s.letter (.separate value)).Passes table s.opt := by
  have hf : table.optmapS[[s.letter]]? = some s.opt := by cases s <;> rfl
  have hn : s.opt.nargs = 1 := by cases s <;> rfl
  exact ⟨⟨s.letter_ne.1, .short hf, hn⟩, s.goesOn_opt value⟩

/-- The option, given so many times. -/
def each (s : Setting) (values : List Bytes) : List (Setting × Bytes) := values.map (s, ·)

end Setting

/-- The options that take no value. -/
inductive Switch where
  | quiet
  | version
  deriving DecidableEq

namespace Switch

/-- The letter that names it. -/
def letter : Switch → UInt8
  | quiet => 113
  | version => 118

/-- The option that the parser has for it. -/
def opt (s : Switch) : Opt := table.optmapS[[s.letter]]?.getD Opt.init

/-- Where `main` tells the parser to store it. -/
def dest : Switch → Bytes
  | quiet => lit "quiet"
  | version => lit "version"

theorem dest_inj {s t : Switch} : s.dest = t.dest ↔ s = t := by
  cases s <;> cases t <;> decide

theorem dest_ne (s : Switch) (t : Setting) : s.dest ≠ t.dest := by
  cases s <;> cases t <;> decide

theorem dest_opt (s : Switch) : s.opt.dest = s.dest := by
  cases s <;> rfl

theorem stored_opt (s : Switch) (value old : Bytes) : s.opt.stored value old = some (lit "1") := by
  cases s <;> rfl

theorem passes (s : Switch) : (Form.short s.letter .alone).Passes table s.opt := by
  have hc : s.letter ≠ 45 := by cases s <;> decide
  have hf : table.optmapS[[s.letter]]? = some s.opt := by cases s <;> rfl
  have ha : s.opt.action = .storeTrue := by cases s <;> rfl
  have hn : s.opt.nargs ≠ 1 := by cases s <;> decide
  exact ⟨⟨hc, .short hf, hn⟩, by simp [ha], by simp [ha], fun h ↦ by simp [Opt.Takes, ha] at h⟩

/-- The option, if it is given. -/
def when (s : Switch) (b : Bool) : List Switch := if b then [s] else []

end Switch

/-- Some options with their values. -/
def uses (l : List (Setting × Bytes)) : List Use := l.map fun x ↦ ⟨x.1.opt, x.2⟩

/-- Some options without a value. -/
def switched (l : List Switch) : List Use := l.map fun s ↦ ⟨s.opt, []⟩

namespace Options

/-- The options with a value, each as often as it is given. -/
def settings (o : Options) : List (Setting × Bytes) :=
  Setting.each .readFile o.readFile ++ Setting.each .interface o.interface.toList
    ++ Setting.each .redisDb o.redisDb.toList ++ Setting.each .redisHost [o.redisHost]
    ++ Setting.each .redisPort [o.redisPort] ++ Setting.each .zmqAddr o.zmqAddr.toList
    ++ Setting.each .msgpackPath o.msgpackPath.toList

/-- The options without a value that are given. -/
def switches (o : Options) : List Switch :=
  Switch.when .quiet o.quiet ++ Switch.when .version o.version

/-- Arguments for these options. -/
def args (o : Options) : List Bytes :=
  (o.switches.map fun s ↦ lit "-" ++ [s.letter]) ++
    o.settings.flatMap fun x ↦ [lit "-" ++ [x.1.letter], x.2]

/-- The parts of a command line that has these options. -/
def items (o : Options) : List Item :=
  (o.switches.map fun s ↦ .option [] (.short s.letter .alone) s.opt) ++
    o.settings.map fun x ↦ .option [] (.short x.1.letter (.separate x.2)) x.1.opt

theorem items_fit (o : Options) : ∀ x ∈ o.items, x.Fits table :=
  List.forall_mem_append.2
    ⟨List.forall_mem_map.2 fun s _ ↦ ⟨List.forall_mem_nil _, s.passes⟩,
      List.forall_mem_map.2 fun x _ ↦ ⟨List.forall_mem_nil _, x.1.passes x.2⟩⟩

/-- The command line of some options with their values. -/
def commandLine (o : Options) : CommandLine table := ⟨o.items, .nothing, o.items_fit, trivial⟩

theorem commandLine_args (o : Options) : o.commandLine.args = o.args := by
  have hi : o.items.flatMap Item.args = o.args := by
    rw [items, args, List.flatMap_append, List.flatMap_map, List.flatMap_map]
    congr 1
    exact List.map_eq_flatMap.symm
  rw [CommandLine.args, commandLine, hi]
  exact List.append_nil _

theorem commandLine_uses (o : Options) :
    o.commandLine.uses = switched o.switches ++ uses o.settings := by
  have hi : o.items.flatMap Item.uses = switched o.switches ++ uses o.settings := by
    rw [items, uses, switched, List.flatMap_append, List.flatMap_map, List.flatMap_map]
    congr 1 <;> exact List.map_eq_flatMap.symm
  rw [CommandLine.uses, commandLine, hi]
  exact List.append_nil _

/-- What the switches and the settings store. -/
theorem given_commandLine (o : Options) (d : Bytes) :
    given o.commandLine.uses d =
      (o.switches.filterMap fun s ↦ if s.dest = d then some (lit "1") else none) ++
        o.settings.filterMap fun x ↦ if x.1.dest = d then some x.2 else none := by
  rw [given_eq (not_count o.commandLine), commandLine_uses, List.filterMap_append]
  simp [switched, uses, List.filterMap_map, Opt.storedAt, Switch.dest_opt, Switch.stored_opt,
    Setting.dest_opt, Setting.stored_opt]

theorem given_each (s t : Setting) (values : List Bytes) :
    ((s.each values).filterMap fun x ↦ if x.1.dest = t.dest then some x.2 else none) =
      if s = t then values else [] := by
  simp only [Setting.each, List.filterMap_map, Function.comp_def, Setting.dest_inj]
  split <;> simp

theorem given_settings (o : Options) (t : Setting) :
    given o.commandLine.uses t.dest =
      match t with
      | .readFile => o.readFile
      | .interface => o.interface.toList
      | .redisDb => o.redisDb.toList
      | .redisHost => [o.redisHost]
      | .redisPort => [o.redisPort]
      | .zmqAddr => o.zmqAddr.toList
      | .msgpackPath => o.msgpackPath.toList := by
  rw [given_commandLine, settings]
  simp only [Switch.dest_ne, if_false, List.filterMap_append, given_each]
  cases t <;> simp

theorem given_switches (o : Options) (s : Switch) :
    given o.commandLine.uses s.dest ≠ [] ↔
      match s with
      | .quiet => o.quiet
      | .version => o.version := by
  have hs (t : Setting) : t.dest ≠ s.dest := (s.dest_ne t).symm
  rw [given_commandLine, switches]
  simp only [Switch.dest_inj, hs, if_false]
  cases s <;> cases o.quiet <;> cases o.version <;> simp [Switch.when]

theorem commandLine_options (o : Options) : o.commandLine.options = o := by
  have hl (x : Option Bytes) : x.toList.getLast? = x := by cases x <;> rfl
  have hfiles : given o.commandLine.uses (lit "read_file") = _ := o.given_settings .readFile
  have hi : given o.commandLine.uses (lit "interface") = _ := o.given_settings .interface
  have hdb : given o.commandLine.uses (lit "redis_db") = _ := o.given_settings .redisDb
  have hh : given o.commandLine.uses (lit "redis_host") = _ := o.given_settings .redisHost
  have hp : given o.commandLine.uses (lit "redis_port") = _ := o.given_settings .redisPort
  have hz : given o.commandLine.uses (lit "zmq_addr") = _ := o.given_settings .zmqAddr
  have hm : given o.commandLine.uses (lit "msgpack_path") = _ := o.given_settings .msgpackPath
  have hv : decide (given o.commandLine.uses (lit "version") ≠ []) = o.version :=
    (decide_eq_decide.2 (o.given_switches .version)).trans (Bool.decide_coe _)
  have hq : decide (given o.commandLine.uses (lit "quiet") ≠ []) = o.quiet :=
    (decide_eq_decide.2 (o.given_switches .quiet)).trans (Bool.decide_coe _)
  rw [CommandLine.options, hv, hq, hfiles, hi, hdb, hh, hp, hz, hm]
  simp only [hl]
  rfl

/-- There is a null byte in the arguments only if there is one in the options. -/
theorem zero_notMem_args (o : Options) :
    (∀ arg ∈ o.args, 0 ∉ arg) ↔ ∀ x ∈ o.settings, 0 ∉ x.2 := by
  have hs (s : Setting) : (0 : UInt8) ∉ lit "-" ++ [s.letter] := by cases s <;> decide
  have hw (s : Switch) : (0 : UInt8) ∉ lit "-" ++ [s.letter] := by cases s <;> decide
  rw [args, List.forall_mem_append, List.forall_mem_map, List.forall_mem_flatMap]
  constructor
  · exact fun h x hx ↦ h.2 x hx _ (by simp)
  · refine fun h ↦ ⟨fun s _ ↦ hw s, fun x hx arg harg ↦ ?_⟩
    rcases List.mem_cons.1 harg with rfl | harg
    · exact hs x.1
    · obtain rfl := List.mem_singleton.1 harg
      exact h x hx

end Options

/-- **There are arguments for all options**, which can be handed to the program unless there is a
null byte in one of the values. -/
theorem commandLine_of_options (argv0 : Bytes) (o : Options) :
    commandLine argv0 o.args = .ok (some o) ∧
      ((∀ arg ∈ o.args, 0 ∉ arg) ↔ ∀ x ∈ o.settings, 0 ∉ x.2) := by
  refine ⟨?_, o.zero_notMem_args⟩
  rw [← o.commandLine_args, commandLine_told]
  exact congrArg (fun o ↦ Except.ok (some o)) o.commandLine_options

/-! ## The exit code -/

section Main

variable {σ : Type} {c : Codec} {srv : Redis σ} {al : Allocator} {fuel : Nat} {env : Environment}

/-- The program when `run` is reached, and when it is not. -/
theorem main_eq {argv0 : Bytes} {args : List Bytes} {opt : Options} (st : σ)
    (h : commandLine argv0 args = .ok (some opt)) :
    main c srv al fuel env argv0 args st =
      (run c srv al fuel env opt st).map fun o ↦ { o with rc := if o.rc = 0 then 0 else 1 } := by
  unfold commandLine at h
  unfold main
  cases hp : psr.parseArgv argv0 args with
  | error e => simp [hp, Except.map] at h
  | ok r =>
    obtain ⟨vs, words⟩ := r
    have ho : Options.ofValues vs = some opt := by simpa [hp, Except.map] using h
    simp [ho, Option.map_eq_bind]

theorem main_error {argv0 : Bytes} {args : List Bytes} {e : Exit} (st : σ)
    (h : commandLine argv0 args = .error e) :
    ∃ cerr, main c srv al fuel env argv0 args st = some ⟨e.code, cerr, [], none, st⟩ := by
  unfold commandLine at h
  unfold main
  cases hp : psr.parseArgv argv0 args with
  | error e' =>
    obtain rfl : e' = e := by simpa [hp, Except.map] using h
    exact ⟨_, rfl⟩
  | ok r => simp [hp, Except.map] at h

theorem run_exit {opt : Options} {st : σ} (hserves : Serves c srv env opt st)
    (haddr : ∀ p ∈ packets (env.events opt), p.HasAddrs) (hfuel : (env.events opt).length < fuel) :
    ∃ o, run c srv al fuel env opt st = some o ∧ (o.rc = 0 → Closed o.trace) ∧
      (o.rc = 0 ↔ opt.version ∨ Enabled srv env opt st ∧ env.complete opt) := by
  cases hversion : opt.version with
  | true => exact ⟨⟨0, [], [], none, st⟩, by simp [run, hversion], fun _ ↦ closed_nil, by simp⟩
  | false =>
    obtain ⟨w, ok, hprepare, hu, hok⟩ := prepare_eq hserves
    cases ok with
    | false =>
      have henabled : ¬Enabled srv env opt st := by simpa using hok
      exact ⟨.error w [] [], by simp [run, hversion, hprepare], fun _ ↦ closed_nil,
        by simp [Outcome.error, henabled]⟩
    | true =>
      have henabled : Enabled srv env opt st := hok.mp rfl
      obtain ⟨o, hrun, hrc, hclosed⟩ := run_capture hversion hprepare hu hserves al haddr hfuel
      refine ⟨o, hrun, fun h ↦ hclosed.2 (.inl ?_), ?_⟩
      · cases hcomplete : env.complete opt <;> simp_all
      · cases hcomplete : env.complete opt <;> simp [hrc, hcomplete, henabled]

/-- **The exit code of the program**, for any arguments: that of the parser if the program ends
there, and then it has not touched anything; or else 0 for the version, or when Redis and ZeroMQ
could be enabled as far as they are asked for and everything could be read, and then no flow is left
open.  That the file for the events could not be opened does not show in the exit code. -/
theorem main_exit (argv0 : Bytes) (l : CommandLine table) (st : σ)
    (hserves : Serves c srv env l.options st)
    (haddr : ∀ p ∈ packets (env.events l.options), p.HasAddrs)
    (hfuel : (env.events l.options).length < fuel) :
    ∃ o, main c srv al fuel env argv0 l.args st = some o ∧
      match l.ending.exit? with
      | some e => o.rc = e.code ∧ o.trace = [] ∧ o.output = none ∧ o.server = st
      | none =>
        (o.rc = 0 ∨ o.rc = 1) ∧ (o.rc = 0 → Closed o.trace) ∧
        (o.rc = 0 ↔ l.options.version ∨ Enabled srv env l.options st ∧ env.complete l.options) := by
  have h := commandLine_told argv0 l
  unfold CommandLine.told at h
  cases he : l.ending.exit? with
  | some e =>
    simp only [he] at h
    obtain ⟨cerr, ho⟩ := main_error st h
    exact ⟨_, ho, rfl, rfl, rfl, rfl⟩
  | none =>
    simp only [he] at h
    obtain ⟨o, hrun, hclosed, hrc⟩ := run_exit hserves haddr hfuel
    have h₀ : (if o.rc = 0 then (0 : Int) else 1) = 0 ↔ o.rc = 0 := by split <;> simp_all
    refine ⟨{ o with rc := if o.rc = 0 then 0 else 1 }, by rw [main_eq st h, hrun]; rfl, ?_,
      fun hz ↦ hclosed (h₀.1 hz), h₀.trans hrc⟩
    by_cases hz : o.rc = 0
    · exact .inl (if_pos hz)
    · exact .inr (if_neg hz)

theorem main_exit_sample :
    ∃ o, main format Redis.store .above 20 sampleEnvironment (lit "dnshive")
        sampleOptions.commandLine.args ∅ = some o ∧
      (o.rc = 0 ∨ o.rc = 1) ∧ (o.rc = 0 → Closed o.trace) ∧
      (o.rc = 0 ↔ sampleOptions.commandLine.options.version ∨
        Enabled Redis.store sampleEnvironment sampleOptions.commandLine.options ∅ ∧
          sampleEnvironment.complete sampleOptions.commandLine.options) :=
  main_exit (lit "dnshive") sampleOptions.commandLine ∅
    (by rw [sampleOptions.commandLine_options]; exact sampleOptions_serves)
    (by rw [sampleOptions.commandLine_options]; decide)
    (by rw [sampleOptions.commandLine_options]; decide)

end Main

end DnsHive
